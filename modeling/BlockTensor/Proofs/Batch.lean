import BlockTensor.Backend.Window
import BlockTensor.Proofs.View

/-!
# Accepted batch windows

`BatchFits` is what `checkBatch` establishes (`checkBatch_eq_ok`): matrices with
the rows and columns that a window names. Each row of the window then lies
inside the elements of its matrix (`BatchFits.a_le`, `b_le`, `r_le`).
-/

namespace BlockTensor

open Outcome

variable {α : Type}

/-- Contiguous matrices that hold the window. -/
structure BatchFits (result : Shape) (a b : View α) (w : BatchWindow) : Prop where
  resultRank : result.rank = 2
  aRank : a.shape.rank = 2
  bRank : b.shape.rank = 2
  rows : a.shape.first = result.first
  aContiguous : a.isContiguous = true
  bContiguous : b.isContiguous = true
  aColumns : w.aColumn + w.columns ≤ a.shape.last
  bColumns : w.bColumn + w.columns ≤ b.shape.last
  bRows : w.bRow + w.rowChunk ≤ b.shape.first
  rColumns : w.rColumn + w.rowChunk ≤ result.last

theorem checkMatrix_eq_ok {operand : String} {shape : Shape} {u : Unit}
    (h : checkMatrix operand shape = .ok u) : shape.rank = 2 := by
  unfold checkMatrix at h
  split at h
  · assumption
  · exact absurd h (fail_ne_ok _ _)

theorem checkWindow_eq_ok {op : String} {size offset len : Nat} {u : Unit}
    (h : checkWindow op size offset len = .ok u) : offset + len ≤ size := by
  obtain ⟨stop, hs, h⟩ := bind_eq_ok.mp h
  obtain ⟨-, rfl⟩ := Word.check_eq_ok.mp hs
  split at h
  · assumption
  · exact absurd h (fail_ne_ok _ _)

theorem checkWindow_of_le {op : String} {size offset len : Nat} (h : offset + len ≤ size)
    (hb : size < Word.bound) : checkWindow op size offset len = .ok () := by
  rw [checkWindow, Word.add_of_lt (Nat.lt_of_le_of_lt h hb), ok_bind, if_pos h]
  rfl

theorem contiguous_of_isContiguous {v : View α} (h : v.isContiguous = true) :
    v.contiguous = .ok v.elems := if_pos h

theorem contiguous_eq_ok {v : View α} {e : Elements α} (h : v.contiguous = .ok e) :
    v.isContiguous = true :=
  (v.contiguous_ensures.of_ok h).1

theorem checkBatch_eq_ok {result : Shape} {a b : View α} {w : BatchWindow} {u : Unit}
    (h : checkBatch result a b w = .ok u) : BatchFits result a b w := by
  obtain ⟨_, hr, h⟩ := bind_eq_ok.mp h
  obtain ⟨_, ha, h⟩ := bind_eq_ok.mp h
  obtain ⟨_, hb, h⟩ := bind_eq_ok.mp h
  dsimp only at h
  split at h
  · exact absurd h (fail_ne_ok _ _)
  rename_i hrows
  obtain ⟨_, hac, h⟩ := bind_eq_ok.mp h
  obtain ⟨_, hbc, h⟩ := bind_eq_ok.mp h
  obtain ⟨_, haw, h⟩ := bind_eq_ok.mp h
  obtain ⟨_, hbw, h⟩ := bind_eq_ok.mp h
  obtain ⟨_, hbr, h⟩ := bind_eq_ok.mp h
  exact ⟨checkMatrix_eq_ok hr, checkMatrix_eq_ok ha, checkMatrix_eq_ok hb,
    Decidable.not_not.mp hrows, contiguous_eq_ok hac, contiguous_eq_ok hbc, checkWindow_eq_ok haw,
    checkWindow_eq_ok hbw, checkWindow_eq_ok hbr, checkWindow_eq_ok h⟩

namespace Shape

variable {s : Shape}

theorem dims_of_rank_two (h : s.rank = 2) : s.dims = [s.first, s.last] := by
  rcases s with ⟨dims, hne, hpos⟩
  obtain ⟨m, n, rfl⟩ := List.length_eq_two.mp h
  rfl

theorem of_dims {m n : Nat} (h : s.dims = [m, n]) : s.rank = 2 ∧ s.first = m ∧ s.last = n := by
  rcases s with ⟨dims, hne, hpos⟩
  obtain rfl : dims = [m, n] := h
  exact ⟨rfl, rfl, rfl⟩

theorem size_eq_first_mul_last (h : s.rank = 2) : s.size = s.first * s.last := by
  rw [size, dims_of_rank_two h, volume_cons, volume_cons, volume_nil, Nat.mul_one]

theorem inRange_matrix (h : s.rank = 2) {i j : Nat} :
    InRange s.dims [i, j] ↔ i < s.first ∧ j < s.last := by
  rw [dims_of_rank_two h, inRange_cons, inRange_cons, and_iff_left inRange_nil]

theorem linear_matrix (h : s.rank = 2) (i j : Nat) :
    linear s.dims [i, j] = i * s.last + j := by
  rw [dims_of_rank_two h]
  simp [linear]

theorem dim_eq_first (h : s.rank = 2) : s.dim 0 = .ok s.first := by
  rw [dim_eq (by omega), dims_of_rank_two h]
  rfl

theorem dim_eq_last (h : s.rank = 2) : s.dim 1 = .ok s.last := by
  rw [dim_eq (by omega), dims_of_rank_two h]
  rfl

theorem first_le_size (h : s.rank = 2) : s.first ≤ s.size :=
  size_eq_first_mul_last h ▸
    Nat.le_mul_of_pos_right _ (s.pos _ (List.getLast_mem s.nonempty))

theorem last_le_size (h : s.rank = 2) : s.last ≤ s.size :=
  size_eq_first_mul_last h ▸ Nat.le_mul_of_pos_left _ (s.pos _ (List.head_mem s.nonempty))

end Shape

/-- A window of a row lies inside the matrix. -/
theorem row_window_le {s : Shape} (h : s.rank = 2) {i offset len : Nat} (hi : i < s.first)
    (hw : offset + len ≤ s.last) : i * s.last + offset + len ≤ s.size := by
  have hrow := Nat.mul_le_mul_right s.last hi
  rw [Nat.succ_mul] at hrow
  rw [Shape.size_eq_first_mul_last h]
  omega

namespace BatchFits

variable {result : Shape} {a b : View α} {w : BatchWindow} (h : BatchFits result a b w)

include h

theorem a_le (ha : a.WellFormed) {i : Nat} (hi : i < a.shape.first) :
    i * a.shape.last + w.aColumn + w.columns ≤ a.elems.size :=
  Nat.le_trans (row_window_le h.aRank hi h.aColumns) (ha.size_le h.aContiguous)

theorem b_le (hb : b.WellFormed) {r : Nat} (hr : r < w.rowChunk) :
    (w.bRow + r) * b.shape.last + w.bColumn + w.columns ≤ b.elems.size :=
  Nat.le_trans (row_window_le h.bRank (Nat.lt_of_lt_of_le (Nat.add_lt_add_left hr _) h.bRows)
    h.bColumns) (hb.size_le h.bContiguous)

theorem r_le {i : Nat} (hi : i < a.shape.first) :
    i * result.last + w.rColumn + w.rowChunk ≤ result.size :=
  row_window_le h.resultRank (h.rows ▸ hi) h.rColumns

end BatchFits

/-- Windows that fit pass the checks. -/
theorem checkBatch_of_fits {result : Shape} {a b : View α} {w : BatchWindow}
    (h : BatchFits result a b w) (hr : result.size < Word.bound) (ha : a.shape.size < Word.bound)
    (hb : b.shape.size < Word.bound) : checkBatch result a b w = .ok () := by
  have hmatrix {operand : String} {shape : Shape} (hrank : shape.rank = 2) :
      checkMatrix operand shape = .ok () := if_pos hrank
  have hwindow {len offset n size : Nat} (hle : offset + len ≤ n) (hn : n ≤ size)
      (hsize : size < Word.bound) : checkWindow "batch_dot_product" n offset len = .ok () :=
    checkWindow_of_le hle (Nat.lt_of_le_of_lt hn hsize)
  rw [checkBatch, hmatrix h.resultRank, ok_bind, hmatrix h.aRank, ok_bind, hmatrix h.bRank,
    ok_bind]
  dsimp only
  rw [if_neg (Decidable.not_not.mpr h.rows), contiguous_of_isContiguous h.aContiguous, ok_bind,
    contiguous_of_isContiguous h.bContiguous, ok_bind,
    hwindow h.aColumns (Shape.last_le_size h.aRank) ha, ok_bind,
    hwindow h.bColumns (Shape.last_le_size h.bRank) hb, ok_bind,
    hwindow h.bRows (Shape.first_le_size h.bRank) hb, ok_bind,
    hwindow h.rColumns (Shape.last_le_size h.resultRank) hr]

end BlockTensor

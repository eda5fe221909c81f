import BlockTensor.Proofs.Allocation
import BlockTensor.Proofs.Materialize
import BlockTensor.Proofs.ReferenceBatch

/-!
# Products of matrices

The product of two matrices is the batched dot product of the rows of the first and the rows
of the transposed second. Transposing stores its patterns anew, up to the payload of what is no
number, which no product sees. So the elements of the result are the sums, from left to right,
of the products of the elements of the two (`Tensor.matmul_sums`). A product that would fill
more than half of the addresses aborts (`Tensor.matmul_aborts`).

* `Tensor.Multiplies a b`: the matrices that have a product.
* `Tensor.rowProducts`: the rows of a matrix times the rows of another one, as the reference
  loops store them.
-/

namespace BlockTensor

open Outcome Update Shape

variable {α : Type} [Scalar α]

namespace Tensor

variable {a b : Tensor α}

/-- Two matrices, the second with as many rows as the first has columns. -/
structure Multiplies (a b : Tensor α) : Prop where
  left : a.shape.rank = 2
  right : b.shape.rank = 2
  inner : a.shape.last = b.shape.first

/-- Anything else is refused. -/
theorem matmul_refused (be : Backend α) (h : ¬a.Multiplies b) :
    ∃ e, matmul be a b = .error (.error e) := by
  unfold matmul
  by_cases hranks : a.shape.rank ≠ 2 ∨ b.shape.rank ≠ 2
  · exact ⟨_, by rw [if_pos hranks]; rfl⟩
  · rw [not_or, Decidable.not_not, Decidable.not_not] at hranks
    have hinner : a.shape.last ≠ b.shape.first := fun hinner => h ⟨hranks.1, hranks.2, hinner⟩
    rw [if_neg (by omega), dim_eq_first hranks.1, dim_eq_last hranks.1, dim_eq_first hranks.2,
      dim_eq_last hranks.2]
    exact ⟨_, by simp only [ok_bind, if_pos hinner]; rfl⟩

/-- The rows of `a` times the rows of `u`, as the reference loops store them. -/
theorem rowProducts {u : Tensor α} (ha : a.WellFormed) (hu : u.WellFormed)
    (har : a.shape.rank = 2) (hur : u.shape.rank = 2) (hinner : a.shape.last = u.shape.last)
    {result : Shape} (hdims : result.dims = [a.shape.first, u.shape.first]) {e : Elements α}
    (he : Receives result e) :
    ∃ e', Backend.reference.batchDotProduct a.whole u.whole (.full a.shape.last u.shape.first)
        result e = .ok [] e' ∧
      e'.layout = e.layout ∧
      ∀ i < a.shape.first, ∀ j < u.shape.first,
        e'.cell? (linear result.dims [i, j]) = Cell.encode? e.dtype
          ((List.range a.shape.last).foldl (fun s t => s + a.value [i, t] * u.value [j, t]) 0) := by
  let w := BatchWindow.full a.shape.last u.shape.first
  obtain ⟨hrank, hfirst, hlast⟩ := of_dims hdims
  have hwa := whole_wellFormed ha
  have hwu := whole_wellFormed hu
  have hf : BatchFits result a.whole u.whole w :=
    { resultRank := hrank
      aRank := har
      bRank := hur
      rows := hfirst.symm
      aContiguous := View.isContiguous_iff.mpr rfl
      bContiguous := View.isContiguous_iff.mpr rfl
      aColumns := Nat.le_of_eq (Nat.zero_add _)
      bColumns := Nat.le_of_eq ((Nat.zero_add _).trans hinner)
      bRows := Nat.le_of_eq (Nat.zero_add _)
      rColumns := Nat.le_of_eq ((Nat.zero_add _).trans hlast.symm) }
  let d (i r : Nat) : α :=
    (List.range a.shape.last).foldl (fun s t => s + a.value [i, t] * u.value [r, t]) 0
  have hdot : ∀ i < a.shape.first, ∀ r < w.rowChunk,
      Reference.dotElements a.elements (i * a.shape.last + w.aColumn) u.elements
        ((w.bRow + r) * u.shape.last + w.bColumn) w.columns = .ok (d i r) := by
    intro i hi r hr
    refine (Reference.dotElements_inOrder ha.elems.scaled hu.elems.scaled (hf.a_le hwa hi)
      (hf.b_le hwu hr)).trans ?_
    rw [Elements.inOrder_eq_foldl]
    simp only [d, w, whole, value, linear_matrix har, linear_matrix hur, BatchWindow.full,
      Nat.add_zero, Nat.zero_add]
  have hw : checkBatch result a.whole u.whole w = .ok () :=
    checkBatch_of_fits hf (Nat.lt_of_le_of_lt he.holds he.fits) hwa.fits hwu.fits
  have hrun : Reference.batchDotProduct a.whole u.whole w result e =
      .ok () (w.overwriteRows result d e a.shape.first) :=
    Reference.batchDotProduct_overwrites hf he hw hdot
  obtain ⟨hinside, -⟩ := w.cell?_overwriteRows d hrank hf.rColumns he (Nat.le_of_eq hf.rows)
  refine ⟨_, (bind_ok hrun).trans rfl, w.overwriteRows_layout .., fun i hi j hj => ?_⟩
  rw [linear_matrix hrank]
  exact hinside i hi j hj

/-- A float matrix with its axes exchanged, stored in the new order. -/
theorem exchange_copies (hα : Scalar.Lossless α) (hb : b.WellFormed)
    (hq : b.dtype.isQuantized = false) (hrank : b.shape.rank = 2) :
    ∃ x u, b.transpose [1, 0] = .ok x ∧ x.toTensor = .ok u ∧
      u.shape.dims = [b.shape.last, b.shape.first] ∧ b.Copies (unpermute [1, 0]) u := by
  have hperm : IsPermutation [1, 0] b.shape.rank := hrank ▸ ⟨rfl, by decide, by decide⟩
  obtain ⟨x, u, hx, hu, hdims, hcopies⟩ := transpose_copies hα hb hq hperm
  refine ⟨x, u, hx, hu, ?_, hcopies⟩
  rw [hdims, dims_of_rank_two hrank]
  rfl

theorem exists_product (m n : Shape) (hsize : m.first * n.last < Word.bound) :
    ∃ shape, Shape.assert [m.first, n.last] = .ok shape ∧ shape.dims = [m.first, n.last] := by
  have hpos : ∀ d ∈ [m.first, n.last], 0 < d := by
    simp only [List.forall_mem_cons, List.not_mem_nil, false_implies, implies_true, and_true]
    exact ⟨m.pos _ (List.head_mem _), n.last_pos⟩
  have hvolume : volume [m.first, n.last] = m.first * n.last := by
    rw [volume_cons, volume_cons, volume_nil, Nat.mul_one]
  exact ⟨⟨_, List.cons_ne_nil _ _, hpos⟩, assert_eq _ _ (hvolume ▸ hsize), rfl⟩

/-- Matrices are multiplied row by row, after the second has been transposed. -/
theorem matmul_eq (be : Backend α) (h : a.Multiplies b) (ha : a.WellFormed) {x : Transposed α}
    {u : Tensor α} (hx : b.transpose [1, 0] = .ok x) (hxu : x.toTensor = .ok u)
    (hu : u.WellFormed) {shape : Shape}
    (hshape : Shape.assert [a.shape.first, b.shape.last] = .ok shape) :
    matmul be a b = (do
      let out ← zeros .f32 shape
      match (Tensor.update (be.batchDotProduct a.whole u.whole
          (.full a.shape.last b.shape.last) shape)).exec out with
      | (.ok _, out) => return out
      | (.error f, _) => .error f) := by
  rw [matmul, if_neg (by rw [h.left, h.right]; simp), dim_eq_first h.left, dim_eq_last h.left,
    dim_eq_first h.right, dim_eq_last h.right]
  simp only [ok_bind, hx, hxu, hshape, if_neg (not_not.mpr h.inner), View.view_eq ha,
    View.view_eq hu]
  rfl

omit [Scalar α] in
theorem exec_update {β : Type} {u : Update (Elements α) β} {shape : Shape} {e e' : Elements α}
    {v : β} (h : u e = .ok v e') :
    (Tensor.update u).exec (owning shape e) = (.ok v, owning shape e') := by
  have hupdate : Tensor.update u (owning shape e) = .ok v (owning shape e') := by
    have hwritable : (owning shape e).storage.writable = .ok e := rfl
    unfold Tensor.update
    rw [hwritable]
    dsimp only
    rw [h]
    rfl
  rw [exec, hupdate]

theorem zeros_eq {shape : Shape} (h : shape.size < Word.bound) (d : DType) :
    (zeros d shape : Outcome (Tensor α)) = (do
      checkCapacity (d.storageBytes shape.size)
      return owning shape (.zeros d shape.size)) := by
  rw [zeros, numel_eq h, ok_bind, Elements.fresh]
  cases checkCapacity (d.storageBytes shape.size) <;> rfl

section

variable {shape : Shape} {e : Elements α}
  (h : e.layout = (Elements.zeros .f32 shape.size : Elements α).layout)

include h

/-- Buffers like those of full-precision zeros hold one value for each element. -/
theorem size_of_zeros : e.size = shape.size := by
  rw [Elements.size_eq_of_layout h, Elements.size_zeros, DType.blocksFor_float rfl]

theorem wellFormed_of_zeros (hsize : shape.size < Word.bound) : (owning shape e).WellFormed := by
  have hd : e.dtype = .f32 := Elements.dtype_eq_of_layout h
  have hscaled : (Elements.zeros .f32 shape.size : Elements α).Scaled := trivial
  refine ⟨⟨hscaled.of_layout h, (size_of_zeros h).symm ▸ hsize⟩, ?_⟩
  show e.size = e.dtype.blocksFor shape.size * e.dtype.blockSize
  rw [hd, DType.blocksFor_float rfl, size_of_zeros h]

end

section

variable (hα : Scalar.Lossless α) (ha : a.WellFormed) (hb : b.WellFormed)
  (hq : b.dtype.isQuantized = false) (h : a.Multiplies b)
  (hsize : a.shape.first * b.shape.last < Word.bound)

include hα ha hb hq h hsize

/-- What is left of a product once the second matrix is transposed: zeros for the result,
and the rows of `a` times those of the copy. -/
theorem matmul_eq_rows (be : Backend α) :
    ∃ (u : Tensor α) (shape : Shape),
      u.shape.dims = [b.shape.last, b.shape.first] ∧ b.Copies (unpermute [1, 0]) u ∧
      shape.dims = [a.shape.first, b.shape.last] ∧
      shape.size = a.shape.first * b.shape.last ∧
      matmul be a b = (do
        checkCapacity (DType.f32.storageBytes shape.size)
        match (Tensor.update (be.batchDotProduct a.whole u.whole
            (.full a.shape.last b.shape.last) shape)).exec
            (owning shape (.zeros .f32 shape.size)) with
        | (.ok _, out) => return out
        | (.error f, _) => .error f) := by
  obtain ⟨x, u, hx, hxu, hdims, hcopies⟩ := exchange_copies hα hb hq h.right
  obtain ⟨shape, hshape, hproduct⟩ := exists_product a.shape b.shape hsize
  obtain ⟨hprank, hpfirst, hplast⟩ := of_dims hproduct
  have hvolume : shape.size = a.shape.first * b.shape.last := by
    rw [size_eq_first_mul_last hprank, hpfirst, hplast]
  refine ⟨u, shape, hdims, hcopies, hproduct, hvolume, ?_⟩
  rw [matmul_eq be h ha hx hxu hcopies.wellFormed hshape, zeros_eq (hvolume ▸ hsize)]
  cases checkCapacity (DType.f32.storageBytes shape.size) <;> rfl

/-- A product that no buffer can hold is not made. -/
theorem matmul_aborts (be : Backend α)
    (hcapacity : checkCapacity (DType.f32.storageBytes (a.shape.first * b.shape.last)) ≠ .ok ()) :
    matmul be a b = .stop .capacity := by
  obtain ⟨u, shape, -, -, -, hvolume, hrun⟩ := matmul_eq_rows hα ha hb hq h hsize be
  have hstop : checkCapacity (DType.f32.storageBytes shape.size) = .stop .capacity :=
    if_neg fun hlt => hcapacity (if_pos (hvolume ▸ hlt))
  rw [hrun, hstop]
  rfl

/-- Where no product sees the payload of what is no number, a matrix product holds the sums
of the products of the elements. -/
theorem matmul_of_multiplies
    (hmul : ∀ {c c' : Cell α}, c'.Same c → ∀ z : α, z * c'.decode = z * c.decode)
    (hcapacity : checkCapacity (DType.f32.storageBytes (a.shape.first * b.shape.last)) = .ok ()) :
    ∃ r, matmul .reference a b = .ok r ∧ r.WellFormed ∧ r.dtype = .f32 ∧
      r.shape.dims = [a.shape.first, b.shape.last] ∧
      ∀ i < a.shape.first, ∀ j < b.shape.last, r.get [i, j] = .ok
        ((List.range a.shape.last).foldl (fun s t => s + a.value [i, t] * b.value [t, j]) 0) := by
  obtain ⟨u, shape, hdims, hcopies, hproduct, hvolume, hmatmul⟩ :=
    matmul_eq_rows hα ha hb hq h hsize .reference
  obtain ⟨hrank, hfirst, hlast⟩ := of_dims hdims
  rw [← hvolume] at hsize hcapacity
  have hheld : (Elements.zeros .f32 shape.size : Elements α).size = shape.size :=
    size_of_zeros rfl
  have hzeros : Receives shape (.zeros .f32 shape.size : Elements α) :=
    ⟨rfl, Nat.le_of_eq hheld.symm, hheld.symm ▸ hsize⟩
  obtain ⟨e, hrun, hlayout, hcells⟩ := rowProducts ha hcopies.wellFormed h.left hrank
    (h.inner.trans hlast.symm) (hfirst ▸ hproduct) hzeros
  rw [hfirst] at hrun hcells
  have hr := wellFormed_of_zeros hlayout hsize
  refine ⟨owning shape e, ?_, hr, Elements.dtype_eq_of_layout hlayout, hproduct,
    fun i hi j hj => ?_⟩
  · rw [hmatmul, hcapacity, ok_bind, exec_update hrun]
    rfl
  · have hvalue : (owning shape e).value [i, j] = (List.range a.shape.last).foldl
        (fun s t => s + a.value [i, t] * u.value [j, t]) 0 := by
      show e.value (linear shape.dims [i, j]) = _
      rw [Elements.value, hcells i hi j hj]
      rfl
    rw [get_eq_value hr (hproduct ▸ ⟨hi, hj, trivial⟩), hvalue]
    refine congrArg Except.ok (List.foldl_ext _ _ _ fun s t ht => ?_)
    -- the column of `b` is a row of the copy
    have hin : InRange u.shape.dims [j, t] :=
      hdims ▸ ⟨hj, h.inner ▸ List.mem_range.mp ht, trivial⟩
    obtain ⟨c, c', hc, hc', hsame⟩ := hcopies.values hin
    rw [hc', hmul hsame, ← hc]
    rfl

end

/-- The reference backend refuses what is no pair of matrices that fit together. Of two float
matrices that do, it gives the full-precision product, if that can be held in a buffer: each
element is the sum, from left to right from zero on, of the products of a row and a column. -/
theorem matmul_sums (m : Machine) (narrow : Binary32 → UInt16) (hn : Binary16.Rounds narrow) :
    letI := Binary32.scalarWith m ⟨Binary32.ofHalf, narrow⟩
    ∀ a b : Tensor Binary32, a.WellFormed → b.WellFormed →
      a.dtype.isQuantized = false → b.dtype.isQuantized = false →
      (¬a.Multiplies b → ∃ e, matmul .reference a b = .error (.error e)) ∧
      (a.Multiplies b → a.shape.first * b.shape.last < Word.bound →
        checkCapacity (DType.f32.storageBytes (a.shape.first * b.shape.last)) = .ok () →
        ∃ (r : Tensor Binary32) (x y : Nat → Nat → Binary32),
          matmul .reference a b = .ok r ∧ r.WellFormed ∧ r.dtype = .f32 ∧
          r.shape.dims = [a.shape.first, b.shape.last] ∧
          (∀ i < a.shape.first, ∀ t < a.shape.last, a.get [i, t] = .ok (x i t)) ∧
          (∀ t < a.shape.last, ∀ j < b.shape.last, b.get [t, j] = .ok (y t j)) ∧
          ∀ i < a.shape.first, ∀ j < b.shape.last, r.get [i, j] =
            .ok ((List.range a.shape.last).foldl (fun s t => s + x i t * y t j) 0)) := by
  let _ := Binary32.scalarWith m ⟨Binary32.ofHalf, narrow⟩
  intro a b ha hb _ hq
  refine ⟨matmul_refused .reference, fun h hsize hcapacity => ?_⟩
  have hmul {c₁ c₂ : Cell Binary32} (hsame : c₂.Same c₁) (z : Binary32) :
      z * c₂.decode = z * c₁.decode := (hsame.decode m narrow).mul_eq z
  obtain ⟨r, hrun, hr, hd, hdims, hsums⟩ :=
    matmul_of_multiplies (hn.lossless m) ha hb hq h hsize hmul hcapacity
  refine ⟨r, fun i t => a.value [i, t], fun t j => b.value [t, j], hrun, hr, hd, hdims,
    fun i hi t ht => ?_, fun t ht j hj => ?_, hsums⟩
  · exact get_eq_value ha ((inRange_matrix h.left).mpr ⟨hi, ht⟩)
  · exact get_eq_value hb ((inRange_matrix h.right).mpr ⟨h.inner ▸ ht, hj⟩)

/-- Two rows of four, as halves. -/
def halfMatrix : Tensor Binary32 :=
  .owning ⟨[2, 4], by decide, by decide⟩
    (.f16 #[0x3c00, 0x4000, 0x4200, 0x4400, 0x4500, 0x4600, 0x4700, 0x4800])

/-- Three columns of four, as brain floats. -/
def brainMatrix : Tensor Binary32 :=
  .owning ⟨[4, 3], by decide, by decide⟩
    (.bf16 #[0x3f80, 0xbf80, 0x0000, 0x3f00, 0x4000, 0x3f80, 0x3f80, 0x0000, 0xc000, 0x4040,
      0x3f80, 0x3f00])

theorem halfMatrix_wellFormed : halfMatrix.WellFormed := ⟨⟨trivial, by decide⟩, rfl⟩

theorem brainMatrix_wellFormed : brainMatrix.WellFormed := ⟨⟨trivial, by decide⟩, rfl⟩

/-- Halves times brain floats, and halves that do not fit together. -/
theorem matmul_sums_mixed :
    Binary16.Rounds (fun x => Binary16.narrow x.bits) ∧
      halfMatrix.WellFormed ∧ brainMatrix.WellFormed ∧
      halfMatrix.dtype.isQuantized = false ∧ brainMatrix.dtype.isQuantized = false ∧
      halfMatrix.Multiplies brainMatrix ∧ 2 * 3 < Word.bound ∧
      checkCapacity (DType.f32.storageBytes (2 * 3)) = .ok () ∧
      (∃ r, matmul .reference halfMatrix brainMatrix = .ok r ∧ r.shape.dims = [2, 3] ∧
        r.get [1, 2] = .ok ⟨0xc0800000⟩) ∧
      ¬halfMatrix.Multiplies halfMatrix ∧
      ∃ e, matmul .reference halfMatrix halfMatrix = .error (.error e) := by
  have hfits : halfMatrix.Multiplies brainMatrix := ⟨rfl, rfl, rfl⟩
  have hsquare : ¬halfMatrix.Multiplies halfMatrix := fun h => absurd h.inner (by decide)
  obtain ⟨-, hproduct⟩ := matmul_sums (.scalar "x86_64" "linux") _ Binary16.rounds_narrow
    halfMatrix brainMatrix halfMatrix_wellFormed brainMatrix_wellFormed rfl rfl
  obtain ⟨hrefused, -⟩ := matmul_sums (.scalar "x86_64" "linux") _ Binary16.rounds_narrow
    halfMatrix halfMatrix halfMatrix_wellFormed halfMatrix_wellFormed rfl rfl
  obtain ⟨r, x, y, hrun, -, -, hdims, hx, hy, hsums⟩ := hproduct hfits (by decide) rfl
  refine ⟨Binary16.rounds_narrow, halfMatrix_wellFormed, brainMatrix_wellFormed, rfl, rfl,
    hfits, by decide, rfl, ⟨r, hrun, hdims, ?_⟩, hsquare, hrefused hsquare⟩
  have hrow : ∀ t < 4, halfMatrix.get [1, t] = .ok (x 1 t) := hx 1 (by decide)
  have hcolumn : ∀ t < 4, brainMatrix.get [t, 2] = .ok (y t 2) :=
    fun t ht => hy t ht 2 (by decide)
  have hx0 : ⟨0x40a00000⟩ = x 1 0 := Except.ok.inj (hrow 0 (by decide))
  have hx1 : ⟨0x40c00000⟩ = x 1 1 := Except.ok.inj (hrow 1 (by decide))
  have hx2 : ⟨0x40e00000⟩ = x 1 2 := Except.ok.inj (hrow 2 (by decide))
  have hx3 : ⟨0x41000000⟩ = x 1 3 := Except.ok.inj (hrow 3 (by decide))
  have hy0 : ⟨0x00000000⟩ = y 0 2 := Except.ok.inj (hcolumn 0 (by decide))
  have hy1 : ⟨0x3f800000⟩ = y 1 2 := Except.ok.inj (hcolumn 1 (by decide))
  have hy2 : ⟨0xc0000000⟩ = y 2 2 := Except.ok.inj (hcolumn 2 (by decide))
  have hy3 : ⟨0x3f000000⟩ = y 3 2 := Except.ok.inj (hcolumn 3 (by decide))
  refine (hsums 1 (by decide) 2 (by decide)).trans (congrArg Except.ok ?_)
  show 0 + x 1 0 * y 0 2 + x 1 1 * y 1 2 + x 1 2 * y 2 2 + x 1 3 * y 3 2 = _
  rw [← hx0, ← hx1, ← hx2, ← hx3, ← hy0, ← hy1, ← hy2, ← hy3]
  decide

/-- Zeros, as halves. -/
def halfZeros (shape : Shape) : Tensor Binary32 :=
  .owning shape (.zeros .f16 shape.size)

theorem halfZeros_wellFormed {shape : Shape} (h : shape.size < Word.bound) :
    (halfZeros shape).WellFormed := by
  have hsize : (Elements.zeros .f16 shape.size : Elements Binary32).size = shape.size := by
    rw [Elements.size_zeros, DType.blocksFor_float rfl]
  refine ⟨⟨trivial, hsize.symm ▸ h⟩, ?_⟩
  show (Elements.zeros .f16 shape.size : Elements Binary32).size =
    DType.f16.blocksFor shape.size * DType.f16.blockSize
  rw [hsize, DType.blocksFor_float rfl]

/-- A column and a row of zeros whose product has elements that can be counted, but that
would fill more than half of the addresses. -/
theorem matmul_overflows_capacity :
    let column : Shape := ⟨[1518500250, 1], by decide, by decide⟩
    let row : Shape := ⟨[1, 1518500250], by decide, by decide⟩
    (halfZeros column).WellFormed ∧ (halfZeros row).WellFormed ∧
      (halfZeros column).Multiplies (halfZeros row) ∧ 1518500250 * 1518500250 < Word.bound ∧
      matmul .reference (halfZeros column) (halfZeros row) = .stop .capacity := by
  intro column row
  have hcolumn : (halfZeros column).WellFormed := halfZeros_wellFormed (by decide)
  have hrow : (halfZeros row).WellFormed := halfZeros_wellFormed (by decide)
  have hfits : (halfZeros column).Multiplies (halfZeros row) := ⟨rfl, rfl, rfl⟩
  have hlossless := Binary16.rounds_narrow.lossless (.scalar "x86_64" "linux")
  exact ⟨hcolumn, hrow, hfits, by decide,
    matmul_aborts hlossless hcolumn hrow rfl hfits (by decide) .reference (by decide)⟩

end Tensor

end BlockTensor

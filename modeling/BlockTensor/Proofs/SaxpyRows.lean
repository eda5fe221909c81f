import BlockTensor.Float.Binary32
import BlockTensor.Proofs.Refusal

/-!
# Rows that are added one after the other

A batched multiply-add checks what concerns all rows first and then adds the rows one by one.
What it finds out about the first row it finds out before it writes. What may go wrong with a
later row alone is that the row does not start on a block, and then the second row does not, so
that the first one has been added: `Backend.saxpyRows_error_iff` says that this is the only way
in which an error leaves a changed destination behind.

* `forM_range_error_iff`: a loop reports what the first failing check of its steps reports.
* `View.slice_eq`: the rows of a view are there just if they start on blocks.
-/

namespace BlockTensor

open Outcome Update

section

variable {σ γ : Type} {u : Nat → Update σ Unit}

/-- A loop of guarded steps reports what the first check that fails reports, and leaves what
the steps before it made. -/
theorem forM_range_error_iff {check : Nat → Outcome γ} (h : ∀ i s, Guarded (u i) (check i) s)
    (n : Nat) {s s' : σ} {err : TensorError} :
    (List.range n).forM u s = .error (.error err) s' ↔
      ∃ k < n, (List.range k).forM u s = .ok () s' ∧ check k = .error (.error err) := by
  induction n with
  | zero => exact ⟨nofun, fun ⟨k, hk, _⟩ => absurd hk (Nat.not_lt_zero k)⟩
  | succ n ih =>
    rw [List.range_succ, forM_concat, bind_error_iff, ih]
    constructor
    · rintro (⟨k, hk, hrun, hcheck⟩ | ⟨_, s₁, hrun, hstep⟩)
      · exact ⟨k, Nat.lt_succ_of_lt hk, hrun, hcheck⟩
      · obtain ⟨hcheck, rfl⟩ := (h n s₁).error_iff.mp hstep
        exact ⟨n, Nat.lt_succ_self n, hrun, hcheck⟩
    · rintro ⟨k, hk, hrun, hcheck⟩
      rcases Nat.lt_succ_iff_lt_or_eq.mp hk with hk | rfl
      · exact .inl ⟨k, hk, hrun, hcheck⟩
      · exact .inr ⟨(), s', hrun, (h k s').error_iff.mpr ⟨hcheck, rfl⟩⟩

/-- Where a loop of guarded steps has come to its end, every check has passed. -/
theorem check_of_forM_range {check : Nat → Outcome γ} (h : ∀ i s, Guarded (u i) (check i) s)
    {n : Nat} {s s' : σ} (hrun : (List.range n).forM u s = .ok () s') :
    ∀ i < n, ∃ v, check i = .ok v := by
  induction n generalizing s' with
  | zero => exact fun i hi => absurd hi (Nat.not_lt_zero i)
  | succ n ih =>
    rw [List.range_succ, forM_concat, bind_ok_iff] at hrun
    obtain ⟨_, s₁, hinit, hlast⟩ := hrun
    intro i hi
    rcases Nat.lt_succ_iff_lt_or_eq.mp hi with hi | rfl
    · exact ih hinit i hi
    · cases hcheck : check i with
      | ok v => exact ⟨v, rfl⟩
      | error fault =>
        have hrefused := ((h i s₁).refused fault hcheck).symm.trans hlast
        cases hrefused

end

namespace View

variable {α : Type} {x : View α}

/-- The number of elements of a row of the leading dimension. -/
def rowSize (x : View α) : Nat := Shape.volume (x.shape.dims.drop 1)

/-- What can be cut into rows. -/
theorem slice_eq_ok {i : Nat} {row : View α} (h : x.slice i = .ok row) :
    x.isContiguous = true ∧ ∃ sub, x.shape.drop 1 = .ok sub := by
  obtain ⟨e, he, h⟩ := bind_eq_ok.mp h
  obtain ⟨sub, hsub, -⟩ := bind_eq_ok.mp h
  exact ⟨contiguous_eq_ok he, sub, hsub⟩

/-- A row is there just if it starts on a block. -/
theorem slice_eq (hx : x.WellFormed) (hc : x.isContiguous = true) {sub : Shape}
    (hsub : x.shape.drop 1 = .ok sub) {i : Nat} (hi : i < x.shape.first) :
    x.slice i =
      if i * x.rowSize % x.dtype.blockSize = 0 then
        .ok ⟨sub, sub.strides, x.elems.extract (i * x.rowSize) x.rowSize⟩
      else .fail (.blockMisaligned (i * x.rowSize) blockSize) := by
  have hsize : sub.size = x.rowSize := congrArg Shape.volume (Shape.drop_dims hsub)
  have hfirst := x.shape.first_mul_volume
  have hle : i * x.rowSize + x.rowSize ≤ x.elems.size := by
    refine Nat.le_trans ?_ (hx.size_le hc)
    rw [← Nat.succ_mul, ← hfirst]
    exact Nat.mul_le_mul_right _ hi
  have hstart : startOf 0 0 x.shape.dims x.strides [i] = .ok (i * x.rowSize) := by
    obtain ⟨d, dims, hd⟩ := List.exists_cons_of_ne_nil x.shape.nonempty
    have hlt : ¬d ≤ i := by
      rw [Shape.first] at hi
      simp only [hd, List.head_cons] at hi
      exact Nat.not_le.mpr hi
    have hend (axis acc : Nat) : startOf axis acc dims (Shape.rowMajor dims) [] = .ok acc := by
      cases dims <;> rfl
    rw [isContiguous_iff.mp hc, Shape.strides, rowSize, hd, Shape.rowMajor, startOf, if_neg hlt,
      hend, Nat.zero_add, List.drop_succ_cons, List.drop_zero]
  have hslice : x.slice i = (do of sub (← x.elems.slice (i * x.rowSize) x.rowSize)) := by
    rw [slice, sliceAt, contiguous_of_isContiguous hc, ok_bind]
    show (do let sub ← x.shape.drop 1; _) = _
    rw [hsub, ok_bind, hstart, ok_bind, hsize]
  rw [hslice]
  by_cases ha : i * x.rowSize % x.dtype.blockSize = 0
  · have hrow := (Elements.slice_eq hx.elems hle).trans (if_pos ha)
    obtain ⟨hwell, -, hheld, -⟩ := (Elements.slice_ensures hx.elems hle).of_ok hrow
    rw [if_pos ha, hrow, ok_bind, of_eq hwell (hsize ▸ hheld)]
  · rw [if_neg ha, (Elements.slice_eq hx.elems hle).trans (if_neg ha)]
    rfl

end View

namespace Backend

variable {α : Type} [Scalar α]

/-- What a batched multiply-add checks of row `r`. -/
def saxpyRowCheck (alphas : Elements α) (x : View α) (xOffset yOffset limit : Nat)
    (rows : RowSpan) (y : Shape) (r : Nat) : Outcome Unit := do
  let row ← x.slice (rows.xRow + r)
  let _ ← alphas.get (rows.alphaOffset + r)
  let _ ← Reference.checkPair "saxpy" row y xOffset yOffset limit
  return ()

/-- What it checks before it writes: the rows, the weights and the first row. -/
def saxpyRowsCheck (alpha x : View α) (xOffset yOffset limit : Nat) (rows : RowSpan)
    (y : Shape) : Outcome Unit := do
  checkWindow "saxpy_rows" alpha.size rows.alphaOffset rows.rows
  checkWindow "saxpy_rows" x.shape.first rows.xRow rows.rows
  let alphas ← alpha.contiguous
  if 0 < rows.rows then saxpyRowCheck alphas x xOffset yOffset limit rows y 0 else return ()

section

variable (be : Backend α) {alphas : Elements α} {x : View α} {xOffset yOffset limit : Nat}
  {rows : RowSpan} {y : Shape}

theorem saxpyRow_guarded (r : Nat) (e : Elements α) :
    Guarded (be.saxpyRow alphas x xOffset yOffset limit rows y r)
      (saxpyRowCheck alphas x xOffset yOffset limit rows y r) e :=
  .after fun row => .after fun alpha =>
    Elementwise.guarded be (.saxpy alpha row xOffset yOffset limit) y e

/-- If the first row passes, a later one passes just if it starts on a block. -/
theorem saxpyRowCheck_eq (hx : x.WellFormed)
    (hzero : saxpyRowCheck alphas x xOffset yOffset limit rows y 0 = .ok ()) {r : Nat}
    (hr : rows.xRow + r < x.shape.first) {v : α} (hv : alphas.get (rows.alphaOffset + r) = .ok v) :
    saxpyRowCheck alphas x xOffset yOffset limit rows y r =
      if r * x.rowSize % x.dtype.blockSize = 0 then .ok ()
      else .fail (.blockMisaligned ((rows.xRow + r) * x.rowSize) blockSize) := by
  obtain ⟨row, hrow, h⟩ := bind_eq_ok.mp hzero
  obtain ⟨_, -, h⟩ := bind_eq_ok.mp h
  obtain ⟨_, hpair, -⟩ := bind_eq_ok.mp h
  obtain ⟨_, hsource, h⟩ := bind_eq_ok.mp hpair
  obtain ⟨_, hwindow, -⟩ := bind_eq_ok.mp h
  obtain ⟨hc, sub, hsub⟩ := View.slice_eq_ok hrow
  have hslice := View.slice_eq hx hc hsub (i := rows.xRow + 0) (by omega)
  rw [hrow] at hslice
  split at hslice
  · rename_i hstart
    have hstart : rows.xRow * x.rowSize % x.dtype.blockSize = 0 := hstart
    obtain rfl := Except.ok.inj hslice
    have haligned : (rows.xRow + r) * x.rowSize % x.dtype.blockSize =
        r * x.rowSize % x.dtype.blockSize := by
      rw [Nat.add_mul, Nat.add_mod, hstart, Nat.zero_add, Nat.mod_mod]
    rw [saxpyRowCheck, View.slice_eq hx hc hsub hr, haligned]
    by_cases ha : r * x.rowSize % x.dtype.blockSize = 0
    · rw [if_pos ha, if_pos ha, ok_bind, hv, ok_bind, Reference.checkPair]
      -- all rows have the size of the first
      show (do
        let _ ← (do
          checkWindow "saxpy" sub.size xOffset limit
          checkWindow "saxpy" y.size yOffset limit
          View.contiguous _)
        return ()) = _
      rw [show checkWindow "saxpy" sub.size xOffset limit = .ok _ from hsource, ok_bind, hwindow,
        ok_bind, contiguous_of_isContiguous (View.isContiguous_iff.mpr rfl)]
      rfl
    · rw [if_neg ha, if_neg ha]
      rfl
  · exact absurd hslice.symm (fail_ne_ok _ _)

/-- Only the first two rows can be refused. -/
theorem rows_error_iff (hx : x.WellFormed) (hrows : rows.xRow + rows.rows ≤ x.shape.first)
    (hget : ∀ r < rows.rows, ∃ v, alphas.get (rows.alphaOffset + r) = .ok v) {e e' : Elements α}
    {err : TensorError} :
    (List.range rows.rows).forM (be.saxpyRow alphas x xOffset yOffset limit rows y) e =
        .error (.error err) e' ↔
      (0 < rows.rows ∧
        saxpyRowCheck alphas x xOffset yOffset limit rows y 0 = .error (.error err) ∧ e' = e) ∨
      (saxpyRowCheck alphas x xOffset yOffset limit rows y 0 = .ok () ∧ 1 < rows.rows ∧
        x.rowSize % x.dtype.blockSize ≠ 0 ∧
        err = .blockMisaligned ((rows.xRow + 1) * x.rowSize) blockSize ∧
        be.saxpyRow alphas x xOffset yOffset limit rows y 0 e = .ok () e') := by
  have hguarded (r : Nat) (e : Elements α) :
      Guarded (be.saxpyRow alphas x xOffset yOffset limit rows y r)
        (saxpyRowCheck alphas x xOffset yOffset limit rows y r) e := be.saxpyRow_guarded r e
  have hlater {r : Nat} (hr : r < rows.rows)
      (hzero : saxpyRowCheck alphas x xOffset yOffset limit rows y 0 = .ok ()) :=
    let ⟨_, hv⟩ := hget r hr
    saxpyRowCheck_eq hx hzero (by omega) hv
  have hone : (List.range 1).forM (be.saxpyRow alphas x xOffset yOffset limit rows y) e =
      be.saxpyRow alphas x xOffset yOffset limit rows y 0 e := by
    rw [List.range_succ, forM_concat]
    rfl
  rw [forM_range_error_iff hguarded]
  constructor
  · rintro ⟨k, hk, hrun, hcheck⟩
    have hpassed := check_of_forM_range hguarded hrun
    cases k with
    | zero =>
      obtain ⟨-, rfl⟩ := EStateM.Result.ok.inj hrun
      exact .inl ⟨hk, hcheck, rfl⟩
    | succ k =>
      obtain ⟨_, hzero⟩ := hpassed 0 (Nat.succ_pos k)
      rw [hlater hk hzero] at hcheck
      split at hcheck
      · cases hcheck
      rename_i hmod
      cases k with
      | zero =>
        rw [Nat.one_mul] at hmod
        exact .inr ⟨hzero, hk, hmod, (Fault.error.inj (Except.error.inj hcheck)).symm,
          hone.symm.trans hrun⟩
      | succ k =>
        -- the second row has passed, so that rows are whole blocks
        obtain ⟨_, hsecond⟩ := hpassed 1 (by omega)
        rw [hlater (by omega) hzero, Nat.one_mul] at hsecond
        split at hsecond
        · rename_i hwhole
          rw [Nat.mul_mod, hwhole, Nat.mul_zero, Nat.zero_mod] at hmod
          exact absurd rfl hmod
        · cases hsecond
  · rintro (⟨hpos, hcheck, rfl⟩ | ⟨hzero, hlt, hmod, rfl, hrun⟩)
    · exact ⟨0, hpos, rfl, hcheck⟩
    · refine ⟨1, hlt, hone.trans hrun, ?_⟩
      rw [hlater hlt hzero, Nat.one_mul, if_neg hmod]
      rfl

end

/-- A batched multiply-add reports the errors of its check, leaving the destination as it was,
and one more: that the second row does not start on a block. Then the first row has been
added. -/
theorem saxpyRows_error_iff (be : Backend α) (alpha x : View α) (xOffset yOffset limit : Nat)
    (rows : RowSpan) (y : Shape) (ha : alpha.WellFormed) (hx : x.WellFormed) (e e' : Elements α)
    (err : TensorError) :
    be.saxpyRows alpha x xOffset yOffset limit rows y e = .error (.error err) e' ↔
      (saxpyRowsCheck alpha x xOffset yOffset limit rows y = .error (.error err) ∧ e' = e) ∨
      (saxpyRowsCheck alpha x xOffset yOffset limit rows y = .ok () ∧ 1 < rows.rows ∧
        x.rowSize % x.dtype.blockSize ≠ 0 ∧
        err = .blockMisaligned ((rows.xRow + 1) * x.rowSize) blockSize ∧
        be.saxpyRow alpha.elems x xOffset yOffset limit rows y 0 e = .ok () e') := by
  let operands : Outcome (Elements α) := do
    checkWindow "saxpy_rows" alpha.size rows.alphaOffset rows.rows
    checkWindow "saxpy_rows" x.shape.first rows.xRow rows.rows
    alpha.contiguous
  have hcheck : saxpyRowsCheck alpha x xOffset yOffset limit rows y = (do
      let alphas ← operands
      if 0 < rows.rows then saxpyRowCheck alphas x xOffset yOffset limit rows y 0
      else return ()) := by
    simp only [saxpyRowsCheck, operands, bind_assoc]
  have hrun : be.saxpyRows alpha x xOffset yOffset limit rows y e = (ofOutcome operands >>=
      fun alphas => (List.range rows.rows).forM
        (be.saxpyRow alphas x xOffset yOffset limit rows y)) e := rfl
  rw [hcheck, hrun]
  cases hoperands : operands with
  | error fault =>
    constructor
    · intro h
      obtain ⟨rfl, rfl⟩ := EStateM.Result.error.inj h
      exact .inl ⟨rfl, rfl⟩
    · rintro (⟨h, rfl⟩ | ⟨h, -⟩)
      · obtain rfl := Except.error.inj h
        rfl
      · cases h
  | ok alphas =>
    obtain ⟨_, hweights, h⟩ := bind_eq_ok.mp hoperands
    obtain ⟨_, hrows, h⟩ := bind_eq_ok.mp h
    obtain ⟨hc, rfl⟩ := alpha.contiguous_ensures.of_ok h
    have hheld := Nat.le_trans (checkWindow_eq_ok hweights) (ha.size_le hc)
    have hget : ∀ r < rows.rows, ∃ v, alpha.elems.get (rows.alphaOffset + r) = .ok v :=
      fun r hr => Elements.exists_get ha.elems.scaled (by omega)
    refine (rows_error_iff be hx (checkWindow_eq_ok hrows) hget).trans ?_
    rw [ok_bind]
    by_cases hpos : 0 < rows.rows
    · rw [if_pos hpos, and_iff_right hpos]
    · have hfew : ¬1 < rows.rows := fun h => hpos (Nat.lt_of_succ_lt h)
      simp [hpos, hfew]

/-- A weight of one for each of four rows. -/
def unitWeights : View Binary32 :=
  ⟨⟨[4], by decide, by decide⟩, [1], .f32 (.replicate 4 ⟨0x3f800000⟩)⟩

/-- Three rows of ones, in one block of bytes. -/
def sharedBlock : View Binary32 :=
  ⟨⟨[3, 8], by decide, by decide⟩, [8, 1], .q8 (.replicate 32 1) #[⟨0x3f800000⟩]⟩

/-- A destination of less than a block. -/
def shortRow : Shape := ⟨[8], by decide, by decide⟩

theorem saxpyRows_error_iff_sharedBlock :
    unitWeights.WellFormed ∧ sharedBlock.WellFormed ∧
      Backend.reference.saxpyRows unitWeights sharedBlock 7 3 1 ⟨2, 0, 2⟩ shortRow
        (.f32 (.replicate 8 ⟨0x3f800000⟩)) = .error (.error (.blockMisaligned 8 32))
        (.f32 ((Array.replicate 8 ⟨0x3f800000⟩).set! 3 ⟨0x40000000⟩)) := by
  have ha : unitWeights.WellFormed := View.wellFormed_of ⟨trivial, by decide⟩ (by decide)
  have hx : sharedBlock.WellFormed := View.wellFormed_of ⟨rfl, by decide⟩ (by decide)
  refine ⟨ha, hx, (saxpyRows_error_iff .reference unitWeights sharedBlock 7 3 1 ⟨2, 0, 2⟩ shortRow
    ha hx _ _ _).mpr (.inr ?_)⟩
  exact ⟨rfl, by decide, by decide, rfl, rfl⟩

/-- The first row has been added when the second is refused. -/
theorem saxpyRows_adds_first : ∃ e',
    Backend.reference.saxpyRows unitWeights sharedBlock 0 0 8 ⟨0, 0, 3⟩ shortRow
      (.f32 (.replicate 8 ⟨0⟩)) = .error (.error (.blockMisaligned 8 32)) e' ∧
      e' ≠ .f32 (.replicate 8 ⟨0⟩) :=
  ⟨.f32 (.replicate 8 ⟨0x3f800000⟩), rfl, by decide⟩

end Backend

end BlockTensor

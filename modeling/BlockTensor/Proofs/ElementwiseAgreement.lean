import BlockTensor.Proofs.QuantizedBatch
import BlockTensor.Proofs.Refusal

/-!
# Elementwise operations agree

The reference backend decodes a window, changes each value and encodes the
window again, row after row. The vectorized one combines runs of full-precision
elements, the rows in the order of a pool and a long run cut into its chunks; the
other encodings it leaves to the reference loops.

* `Elementwise.reference_eq`, `Elementwise.vector_eq`: on float elements and on
  full-precision ones, both are `Elementwise.rewrite`.
* `Elementwise.run_agrees`: every backend does what the reference backend does, and
  what becomes of each element of a float destination is known.
-/

namespace BlockTensor

open Outcome Update Elements

variable {α : Type} [Scalar α]

/-! ## The source -/

section

variable {src : View α} {dst : Shape} {offset len : Nat} {b : Bool}

omit [Scalar α] in
/-- The window of a row of the source lies in its elements. -/
theorem RowsFit.source_le (h : RowsFit dst src offset len)
    (hb : b = true ↔ src.shape.rowCount ≠ dst.rowCount) (hs : src.WellFormed) {r : Nat}
    (hr : r < dst.rowCount) :
    (if b then 0 else r * dst.last) + offset + len ≤ src.elems.size := by
  have hw := h.window
  have hsize : (if b then 0 else r * dst.last) + dst.last ≤ src.shape.size := by
    have hsrc : (if b then 0 else r) < src.shape.rowCount := by
      cases b with
      | true => exact src.shape.rowCount_pos
      | false =>
        have hsame : src.shape.rowCount = dst.rowCount := by simpa using hb
        rw [hsame]
        exact hr
    have hrow := src.shape.row_le hsrc
    rw [h.last] at hrow
    cases b <;> simpa using hrow
  exact Nat.le_trans (by omega) (Nat.le_trans hsize (hs.size_le h.contiguous))

/-- What a row-wise operation reads for an element. -/
theorem RowsFit.source_value (h : RowsFit dst src offset len)
    (hb : b = true ↔ src.shape.rowCount ≠ dst.rowCount) {r i : Nat} (hi : i < len) :
    src.elems.value ((if b then 0 else r * dst.last) + offset + i) =
      Elementwise.sourceValue src dst (r * dst.last + offset + i) := by
  have hw := h.window
  rw [Elementwise.sourceValue]
  congr 1
  cases b with
  | true =>
    have hlt : offset + i < dst.last := by omega
    rw [if_pos rfl, if_neg (hb.mp rfl), Nat.zero_add, Nat.add_assoc, Nat.mul_comm,
      Nat.mul_add_mod, Nat.mod_eq_of_lt hlt]
  | false =>
    have hsame : src.shape.rowCount = dst.rowCount := by simpa using hb
    rw [if_neg Bool.false_ne_true, if_pos hsame]

end

/-! ## Rows -/

variable {dst : Shape} {e : Elements α}

/-- The rows as the reference backend updates them. -/
theorem Reference.rows_rewrite {offset len : Nat} {f : Nat → Nat → α → Outcome α}
    {g : Nat → α → α} (he : e.WellFormed) (hle : dst.size ≤ e.size) (hw : offset + len ≤ dst.last)
    (hf : ∀ r < dst.rowCount, ∀ i < len, ∀ v, f r i v = .ok (g (r * dst.last + offset + i) v)) :
    Rewrites ((List.range dst.rowCount).forM
        fun r => updateWindow (r * dst.last + offset) len (f r)) e
      (e.rewriteRows (List.range dst.rowCount) dst.last offset len g) := by
  refine forM_rewrites fun r hr e' he' => ?_
  have hr := List.mem_range.mp hr
  have hrow := dst.row_le hr
  have hsize := size_eq_of_layout he'
  exact updateWindow_rewrites (he.of_layout he') (by omega) (hf r hr)

/-- The rows of full-precision elements as a pool updates them. -/
theorem Vector.rows_rewrite (p : Pool) {offset len : Nat} {f : Nat → Array α → Outcome (Array α)}
    {g : Nat → α → α} (he : e.WellFormed) (hd : e.dtype = .f32) (hle : dst.size ≤ e.size)
    (hw : offset + len ≤ dst.last)
    (hf : ∀ r < dst.rowCount, ∀ e' : Elements α, f r (e'.run (r * dst.last + offset) len) =
      .ok (Array.ofFn fun i : Fin len =>
        g (r * dst.last + offset + i) (e'.value (r * dst.last + offset + i)))) :
    Rewrites ((p.schedule.order dst.rowCount).forM
        fun r => updateRun (r * dst.last + offset) len (f r)) e
      (e.rewriteRows (List.range dst.rowCount) dst.last offset len g) := by
  have hperm := p.schedule.perm dst.rowCount
  have hq : e.dtype.isQuantized = false := hd ▸ rfl
  rw [← rewriteRows_perm hq hperm List.nodup_range g hw fun r hr =>
    Nat.le_trans (dst.row_le (List.mem_range.mp hr)) hle]
  refine forM_rewrites fun r hr e' he' => ?_
  have hr := List.mem_range.mp (hperm.mem_iff.mp hr)
  have hrow := dst.row_le hr
  have hsize := size_eq_of_layout he'
  cases e' with
  | f32 data =>
    exact updateRun_rewrites (he.of_layout he') (by simp only [size] at *; omega) (hf r hr _)
  | _ => exact absurd ((dtype_eq_of_layout he').trans hd) (by simp [dtype])

section

variable {src : View α} {offset len : Nat} {b : Bool}

/-- The function of values that the reference backend applies to row `r`. -/
theorem RowsFit.get_eq (f : α → α → α) (h : RowsFit dst src offset len)
    (hb : b = true ↔ src.shape.rowCount ≠ dst.rowCount) (hs : src.WellFormed) {r i : Nat}
    (hr : r < dst.rowCount) (hi : i < len) (v : α) :
    (do return f v (← src.elems.get ((if b then 0 else r * dst.last) + offset + i)) : Outcome α) =
      .ok (f v (Elementwise.sourceValue src dst (r * dst.last + offset + i))) := by
  have hle := h.source_le hb hs hr
  rw [get_eq_value hs.elems.scaled (by omega), ok_bind, h.source_value hb hi]
  rfl

/-- The function of runs that the vectorized backend applies to row `r`. -/
theorem RowsFit.read_eq (f : α → α → α) (h : RowsFit dst src offset len)
    (hb : b = true ↔ src.shape.rowCount ≠ dst.rowCount) (hs : src.WellFormed) {r : Nat}
    (hr : r < dst.rowCount) (e' : Elements α) :
    (do return Kernel.zip f (e'.run (r * dst.last + offset) len)
          (← src.elems.read ((if b then 0 else r * dst.last) + offset) len) : Outcome (Array α)) =
      .ok (Array.ofFn fun i : Fin len => f (e'.value (r * dst.last + offset + i))
        (Elementwise.sourceValue src dst (r * dst.last + offset + i))) := by
  rw [read_eq_run hs.elems (h.source_le hb hs hr), ok_bind, Kernel.zip_eq f (by simp)]
  show Except.ok _ = Except.ok _
  congr 1
  refine Array.ext (by simp) fun i hi hi' => ?_
  have hi : i < len := by simpa using hi'
  rw [Array.getElem_ofFn, ← h.source_value hb hi]
  simp [run]

end

/-! ## Operations on rows -/

section

variable {op : String} {src : View α} {offset len : Nat} {b : Bool}

theorem Reference.combineRows_rewrites (f : α → α → α) (hs : src.WellFormed) (he : e.WellFormed)
    (hle : dst.size ≤ e.size) (hc : checkRows op dst src offset len = .ok b) :
    Rewrites (combineRows op f src offset len dst) e
      (e.rewriteRows (List.range dst.rowCount) dst.last offset len
        fun p v => f v (Elementwise.sourceValue src dst p)) := by
  obtain ⟨hfit, hb⟩ := checkRows_eq_ok hc
  rw [combineRows, hc]
  exact rows_rewrite he hle hfit.window fun r hr i hi v => hfit.get_eq f hb hs hr hi v

theorem Vector.combineRows_rewrites (p : Pool) (f : α → α → α) (hs : src.WellFormed)
    (he : e.WellFormed) (hd : e.dtype = .f32) (hle : dst.size ≤ e.size)
    (hc : checkRows op dst src offset len = .ok b) :
    Rewrites (combineRows p op f src offset len dst) e
      (e.rewriteRows (List.range dst.rowCount) dst.last offset len
        fun p v => f v (Elementwise.sourceValue src dst p)) := by
  obtain ⟨hfit, hb⟩ := checkRows_eq_ok hc
  rw [Rewrites, combineRows, if_pos hd, hc]
  exact rows_rewrite p he hd hle hfit.window fun r hr e' => hfit.read_eq f hb hs hr e'

theorem Reference.scale_rewrites (factor : α) (he : e.WellFormed) (hle : dst.size ≤ e.size)
    (hc : checkWindow "scale" dst.last offset len = .ok ()) :
    Rewrites (scale factor offset len dst) e
      (e.rewriteRows (List.range dst.rowCount) dst.last offset len fun _ v => v * factor) := by
  rw [scale, hc]
  exact rows_rewrite he hle (checkWindow_eq_ok hc) fun _ _ _ _ _ => rfl

theorem Vector.scale_rewrites (p : Pool) (factor : α) (he : e.WellFormed) (hd : e.dtype = .f32)
    (hle : dst.size ≤ e.size) (hc : checkWindow "scale" dst.last offset len = .ok ()) :
    Rewrites (scale p factor offset len dst) e
      (e.rewriteRows (List.range dst.rowCount) dst.last offset len fun _ v => v * factor) := by
  rw [Rewrites, scale, if_pos hd, hc]
  refine rows_rewrite p he hd hle (checkWindow_eq_ok hc) fun r hr e' => ?_
  show Except.ok _ = Except.ok _
  rw [Kernel.scale_eq]
  congr 1
  refine Array.ext (by simp) fun i hi hi' => ?_
  simp [run]

end

/-! ## Operations on a flattened pair -/

section

variable {op : String} {x : View α} {xOffset yOffset limit : Nat} {xs : Elements α}

theorem Reference.pair_rewrites (f : α → α → α) (hx : x.WellFormed) (he : e.WellFormed)
    (hle : dst.size ≤ e.size) (h : PairFits x dst xOffset yOffset limit) :
    Rewrites (updateWindow yOffset limit fun i v => return f v (← x.elems.get (xOffset + i))) e
      (e.rewriteRange yOffset limit
        fun p v => f v (x.elems.value (xOffset + (p - yOffset)))) := by
  have hwindow := h.window
  have hsource := Nat.le_trans h.source (hx.size_le h.contiguous)
  refine updateWindow_rewrites he (by omega) fun i hi v => ?_
  rw [get_eq_value hx.elems.scaled (by omega), Nat.add_sub_cancel_left]
  rfl

omit [Scalar α] in
theorem Vector.mapRun_combines (p : Pool) {kernel : Array α → Array α → Array α} {f : α → α → α}
    (hk : Combines kernel f) {run values : Array α} (h : values.size = run.size) :
    mapRun p (fun first chunk =>
      kernel chunk (values.extract first (first + chunk.size))) run =
      Array.zipWith f run values := by
  unfold mapRun
  split
  · exact p.mapChunks_combines hk h
  · show kernel run (values.extract 0 (0 + run.size)) = Array.zipWith f run values
    rw [Nat.zero_add, ← h, Array.extract_size]
    exact hk h

theorem Vector.combinePair_rewrites (p : Pool) {kernel : Array α → Array α → Array α}
    {f : α → α → α} (hk : Combines kernel f) (hx : x.WellFormed) (he : e.WellFormed)
    (hd : e.dtype = .f32) (hle : dst.size ≤ e.size)
    (hc : Reference.checkPair op x dst xOffset yOffset limit = .ok xs) :
    Rewrites (combinePair p op kernel x xOffset yOffset limit dst) e
      (e.rewriteRange yOffset limit
        fun p v => f v (x.elems.value (xOffset + (p - yOffset)))) := by
  obtain ⟨hfit, rfl⟩ := checkPair_eq_ok hc
  have hread := read_eq_run hx.elems (Nat.le_trans hfit.source (hx.size_le hfit.contiguous))
  rw [combinePair, hc, ofOutcome_ok_bind]
  cases e with
  | f32 data =>
    refine updateRun_rewrites he (Nat.le_trans hfit.window hle) ?_
    rw [hread, ok_bind, mapRun_combines p hk (by simp)]
    show Except.ok _ = Except.ok _
    congr 1
    refine Array.ext (by simp) fun i hi hi' => ?_
    simp [run]
  | _ => cases hd

end

/-! ## Agreement -/

namespace Elementwise

variable {op : Elementwise α}

/-- The operand that is read stays inside its elements. -/
def SourceWellFormed (op : Elementwise α) : Prop := ∀ v ∈ op.source?, v.WellFormed

theorem reference_rewrites (hs : op.SourceWellFormed) (he : e.WellFormed)
    (hle : dst.size ≤ e.size) (hc : op.check dst = .ok ()) :
    Rewrites (op.run .reference dst) e (op.rewrite dst e) := by
  cases op with
  | accumulate src offset len | maccumulate src offset len =>
    obtain ⟨_, hrow, -⟩ := bind_eq_ok.mp hc
    exact Reference.combineRows_rewrites _ (hs src rfl) he hle hrow
  | scale factor offset len => exact Reference.scale_rewrites factor he hle hc
  | saxpy c x xOffset yOffset limit =>
    obtain ⟨xs, hpair, -⟩ := bind_eq_ok.mp hc
    obtain ⟨hfit, rfl⟩ := checkPair_eq_ok hpair
    show Rewrites (Reference.saxpy c x xOffset yOffset limit dst) e _
    rw [Reference.saxpy, hpair]
    exact Reference.pair_rewrites (fun v u => c * u + v) (hs x rfl) he hle hfit
  | sxpby c x xOffset yOffset limit =>
    obtain ⟨xs, hpair, -⟩ := bind_eq_ok.mp hc
    obtain ⟨hfit, rfl⟩ := checkPair_eq_ok hpair
    show Rewrites (Reference.sxpby c x xOffset yOffset limit dst) e _
    rw [Reference.sxpby, hpair]
    exact Reference.pair_rewrites (fun v u => u + c * v) (hs x rfl) he hle hfit

theorem vector_rewrites (hadd : ∀ a b : α, a + b = b + a) (hfused : Scalar.Separable α)
    (p : Pool) (hs : op.SourceWellFormed) (he : e.WellFormed) (hd : e.dtype = .f32)
    (hle : dst.size ≤ e.size) (hc : op.check dst = .ok ()) :
    Rewrites (op.run (.vector p) dst) e (op.rewrite dst e) := by
  cases op with
  | accumulate src offset len | maccumulate src offset len =>
    obtain ⟨_, hrow, -⟩ := bind_eq_ok.mp hc
    exact Vector.combineRows_rewrites p _ (hs src rfl) he hd hle hrow
  | scale factor offset len => exact Vector.scale_rewrites p factor he hd hle hc
  | saxpy c x xOffset yOffset limit =>
    obtain ⟨xs, hpair, -⟩ := bind_eq_ok.mp hc
    show Rewrites (Vector.saxpy p c x xOffset yOffset limit dst) e _
    rw [Rewrites, Vector.saxpy, if_pos hd]
    exact Vector.combinePair_rewrites p (Kernel.axpy_eq hadd hfused c) (hs x rfl) he hd hle hpair
  | sxpby c x xOffset yOffset limit =>
    obtain ⟨xs, hpair, -⟩ := bind_eq_ok.mp hc
    show Rewrites (Vector.sxpby p c x xOffset yOffset limit dst) e _
    rw [Rewrites, Vector.sxpby, if_pos hd]
    exact Vector.combinePair_rewrites p (Kernel.xpby_eq c) (hs x rfl) he hd hle hpair

/-- Every backend, over any pool, gives the outcome of the reference backend and
leaves the same destination, if the machine has no fused multiply-add or it rounds as the
two operations do. A refused operation leaves the destination as it
was; an accepted one succeeds, and where the encoding stores each element by
itself, stores the formula in the window and leaves all else. -/
theorem run_agrees (hadd : ∀ a b : α, a + b = b + a) (hfused : Scalar.Separable α)
    (be : Backend α) (op : Elementwise α) (dst : Shape) (e : Elements α)
    (hs : op.SourceWellFormed) (he : e.WellFormed) (hle : dst.size ≤ e.size) :
    op.run be dst e = op.run .reference dst e ∧
      (∀ f, op.check dst = .error f → op.run be dst e = .error f e) ∧
      (op.check dst = .ok () → ∃ e', op.run be dst e = .ok () e' ∧ e'.layout = e.layout ∧
        (e.dtype.isQuantized = false → ∀ p,
          (op.Covers dst p →
            e'.cell? p = Cell.encode? e.dtype (op.formula dst p (e.value p))) ∧
          (¬op.Covers dst p → e'.cell? p = e.cell? p))) := by
  have hsame : op.run be dst e = op.run .reference dst e := by
    obtain hbe | ⟨p, hbe⟩ := run_eq_or be op dst
    · rw [hbe]
    rw [hbe]
    by_cases hd : e.dtype = .f32
    · cases hc : op.check dst with
      | error f =>
        rw [(guarded (.vector p) op dst e).refused f hc, (guarded .reference op dst e).refused f hc]
      | ok _ =>
        have hq : e.dtype.isQuantized = false := hd ▸ rfl
        rw [(vector_rewrites hadd hfused p hs he hd hle hc).eq hq,
          (reference_rewrites hs he hle hc).eq hq]
    · exact vector_of_dtype_ne p op dst hd
  refine ⟨hsame, (guarded be op dst e).refused, fun hc => ?_⟩
  obtain ⟨e', hrun, hlayout, hfloat⟩ := reference_rewrites hs he hle hc
  refine ⟨e', hsame.trans hrun, hlayout, fun hq p => ?_⟩
  have hchanges := rewrite_changes hq hle hc
  rw [hfloat hq]
  exact ⟨hchanges.inside e rfl p, hchanges.outside e rfl p⟩

/-- A row of eleven codes under a scale of two. -/
def codeRow : View ℤ :=
  ⟨⟨[1, 11], by decide, by decide⟩, [11, 1],
    .q8 (#[1, 2, 3, 4, 5, 6, 7, 8, 9, 10, 11] ++ .replicate 21 0) #[2]⟩

/-- Nine of its columns, a register and one more, added to both rows of a destination. -/
theorem run_agrees_pastRegister :
    let dst : Shape := ⟨[2, 11], by decide, by decide⟩
    let op : Elementwise ℤ := .accumulate codeRow 1 9
    let ones : Elements ℤ := .f32 (.replicate 22 1)
    Scalar.Separable ℤ ∧ op.SourceWellFormed ∧ ones.WellFormed ∧ dst.size ≤ ones.size ∧
      op.run (.vector threeWorkers) dst ones =
        .ok () (.f32 #[1, 5, 7, 9, 11, 13, 15, 17, 19, 21, 1,
          1, 5, 7, 9, 11, 13, 15, 17, 19, 21, 1]) := by
  intro dst op ones
  have hsrc : codeRow.WellFormed := View.wellFormed_of ⟨rfl, by decide⟩ (by decide)
  have hs : op.SourceWellFormed := fun v hv => by
    obtain rfl := Option.some.inj hv
    exact hsrc
  have he : ones.WellFormed := ⟨trivial, by decide⟩
  have hle : dst.size ≤ ones.size := by decide
  obtain ⟨hsame, -, -⟩ :=
    run_agrees (fun a b => add_comm a b) separable_of_exact (.vector threeWorkers) op dst _ hs he
      hle
  have hval : op.run .reference dst ones =
      .ok () (.f32 #[1, 5, 7, 9, 11, 13, 15, 17, 19, 21, 1,
        1, 5, 7, 9, 11, 13, 15, 17, 19, 21, 1]) := by decide +kernel
  exact ⟨separable_of_exact, hs, he, hle, hsame.trans hval⟩

end Elementwise

end BlockTensor

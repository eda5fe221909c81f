import BlockTensor.Proofs.Rewrite

/-!
# Elementwise operations

`Elementwise` are the operations that change each element of a window by itself:
the row-wise ones, whose source has the rows of the destination or one row for
all of them, and the ones on a run of a flattened pair. `check` is what an
operation checks, `Covers` its window, `formula` what becomes of an element.

* `checkRows_eq_ok` and `checkPair_eq_ok` say what has passed a check.
* `Elements.rewriteRows` changes the windows of some rows, in any order
  (`rewriteRows_perm`).
* `Elementwise.rewrite_changes`: rewriting the window of an operation changes each
  of its cells by the formula and no other cell.
-/

namespace BlockTensor

open Outcome Update Elements

/-! ## Rows -/

namespace Shape

variable (s : Shape)

theorem last_pos : 0 < s.last := s.pos _ (List.getLast_mem s.nonempty)

theorem rowCount_mul_last : s.rowCount * s.last = s.size := by
  have hsplit : s.size = volume s.dims.dropLast * s.last := by
    rw [size, ← List.dropLast_append_getLast s.nonempty, volume_append]
    simp [last]
  rw [rowCount, hsplit, Nat.mul_div_cancel _ s.last_pos]

/-- A row ends within the shape. -/
theorem row_le {r : Nat} (h : r < s.rowCount) : r * s.last + s.last ≤ s.size := by
  have hrow := Nat.mul_le_mul_right s.last h
  rwa [rowCount_mul_last, Nat.succ_mul] at hrow

theorem rowCount_pos : 0 < s.rowCount :=
  Nat.pos_of_ne_zero fun h => by
    have hsize := s.rowCount_mul_last
    have hpos := s.size_pos
    rw [h] at hsize
    omega

end Shape

theorem Changes.congr {σ γ : Type} {obs : σ → Nat → γ} {I : σ → Prop} {step : σ → σ}
    {P Q : Nat → Prop} {g : Nat → γ → γ} (h : Changes obs I step P g) (hPQ : ∀ i, P i ↔ Q i) :
    Changes obs I step Q g :=
  ⟨h.keeps, fun s hs i hi => h.inside s hs i ((hPQ i).mpr hi),
    fun s hs i hi => h.outside s hs i fun hP => hi ((hPQ i).mp hP)⟩

variable {α : Type} [Scalar α]

namespace Elements

/-- `g i v` for the value `v` of each element `i` of a window of some rows. -/
def rewriteRows (rows : List Nat) (columns offset len : Nat) (g : Nat → α → α)
    (e : Elements α) : Elements α :=
  rows.foldl (fun e r => e.rewriteRange (r * columns + offset) len g) e

/-- An element of a window belongs to the row that it lies in. -/
theorem mem_row_iff {columns offset len : Nat} (hw : offset + len ≤ columns) {r i : Nat} :
    (r * columns + offset ≤ i ∧ i < r * columns + offset + len) ↔
      i / columns = r ∧ offset ≤ i % columns ∧ i % columns < offset + len := by
  have hsplit := Nat.div_add_mod' i columns
  constructor
  · rintro ⟨hlo, hhi⟩
    have hdiv : i / columns = r := Nat.div_eq_of_lt_le (by omega) (by rw [Nat.succ_mul]; omega)
    rw [hdiv] at hsplit
    exact ⟨hdiv, by omega, by omega⟩
  · rintro ⟨rfl, hlo, hhi⟩
    omega

/-- Rewriting the windows of rows changes each of their cells by itself. -/
theorem rewriteRows_changes {e : Elements α} (hq : e.dtype.isQuantized = false)
    {rows : List Nat} (hnodup : rows.Nodup) {columns offset len : Nat} (g : Nat → α → α)
    (hw : offset + len ≤ columns) (hle : ∀ r ∈ rows, r * columns + columns ≤ e.size) :
    Changes cell? (fun e' : Elements α => e'.layout = e.layout)
      (rewriteRows rows columns offset len g)
      (fun i => i / columns ∈ rows ∧ offset ≤ i % columns ∧ i % columns < offset + len)
      (recode e.dtype g) := by
  refine (Changes.foldl (P := fun r i => r * columns + offset ≤ i ∧ i < r * columns + offset + len)
    (k := fun e r => rewriteRange (r * columns + offset) len g e) (fun r hr => ?_)
    (hnodup.imp ?_)).congr fun i => ?_
  · have := hle r hr
    exact rewriteRange_changes hq g (by omega)
  · intro r r' hne i hi hi'
    exact hne (((mem_row_iff hw).mp hi).1.symm.trans ((mem_row_iff hw).mp hi').1)
  · simp only [mem_row_iff hw]
    exact ⟨fun ⟨r, hr, hi, hin⟩ => ⟨hi ▸ hr, hin⟩, fun ⟨hr, hin⟩ => ⟨_, hr, rfl, hin⟩⟩

/-- The order of the rows does not matter. -/
theorem rewriteRows_perm {e : Elements α} (hq : e.dtype.isQuantized = false)
    {rows rows' : List Nat} (hperm : rows.Perm rows') (hnodup : rows'.Nodup)
    {columns offset len : Nat} (g : Nat → α → α) (hw : offset + len ≤ columns)
    (hle : ∀ r ∈ rows', r * columns + columns ≤ e.size) :
    e.rewriteRows rows columns offset len g = e.rewriteRows rows' columns offset len g := by
  have h := rewriteRows_changes hq (hperm.nodup_iff.mpr hnodup) g hw
    fun r hr => hle r (hperm.mem_iff.mp hr)
  have h' := rewriteRows_changes hq hnodup g hw hle
  have hl := h.keeps e rfl
  have hl' := h'.keeps e rfl
  refine eq_of_cells ?_ ((dtype_eq_of_layout hl).trans (dtype_eq_of_layout hl').symm) fun i => ?_
  · rw [dtype_eq_of_layout hl']
    exact hq
  · by_cases hi : i / columns ∈ rows ∧ offset ≤ i % columns ∧ i % columns < offset + len
    · rw [h.inside e rfl i hi, h'.inside e rfl i ⟨hperm.mem_iff.mp hi.1, hi.2⟩]
    · rw [h.outside e rfl i hi, h'.outside e rfl i fun hi' => hi ⟨hperm.mem_iff.mpr hi'.1, hi'.2⟩]

end Elements

/-! ## Checks -/

/-- A row-wise source fits its destination. -/
structure RowsFit (dst : Shape) (src : View α) (offset len : Nat) : Prop where
  contiguous : src.isContiguous = true
  last : src.shape.last = dst.last
  rows : src.shape.rowCount = dst.rowCount ∨ src.shape.rowCount = 1
  window : offset + len ≤ dst.last

omit [Scalar α] in
theorem checkRows_eq_ok {op : String} {dst : Shape} {src : View α} {offset len : Nat} {b : Bool}
    (h : checkRows op dst src offset len = .ok b) :
    RowsFit dst src offset len ∧ (b = true ↔ src.shape.rowCount ≠ dst.rowCount) := by
  obtain ⟨_, hc, h⟩ := bind_eq_ok.mp h
  dsimp only at h
  split at h
  · exact absurd h (fail_ne_ok _ _)
  rename_i hfit
  obtain ⟨_, hw, h⟩ := bind_eq_ok.mp h
  obtain rfl := Except.ok.inj h
  rw [not_or, Classical.not_not, Classical.not_not, decide_eq_true_eq] at hfit
  exact ⟨⟨contiguous_eq_ok hc, hfit.1, hfit.2, checkWindow_eq_ok hw⟩, by simp⟩

/-- The windows of a flattened pair fit. -/
structure PairFits (x : View α) (y : Shape) (xOffset yOffset limit : Nat) : Prop where
  contiguous : x.isContiguous = true
  source : xOffset + limit ≤ x.shape.size
  window : yOffset + limit ≤ y.size

omit [Scalar α] in
theorem checkPair_eq_ok {op : String} {x : View α} {y : Shape} {xOffset yOffset limit : Nat}
    {xs : Elements α} (h : Reference.checkPair op x y xOffset yOffset limit = .ok xs) :
    PairFits x y xOffset yOffset limit ∧ xs = x.elems := by
  obtain ⟨_, hx, h⟩ := bind_eq_ok.mp h
  obtain ⟨_, hy, h⟩ := bind_eq_ok.mp h
  obtain ⟨hc, hxs⟩ := x.contiguous_ensures.of_ok h
  exact ⟨⟨hc, checkWindow_eq_ok hx, checkWindow_eq_ok hy⟩, hxs⟩

/-! ## Operations -/

/-- The operations that change each element of a window by itself. -/
inductive Elementwise (α : Type)
  | accumulate (src : View α) (offset len : Nat)
  | maccumulate (src : View α) (offset len : Nat)
  | scale (factor : α) (offset len : Nat)
  | saxpy (alpha : α) (x : View α) (xOffset yOffset limit : Nat)
  | sxpby (beta : α) (x : View α) (xOffset yOffset limit : Nat)

namespace Elementwise

/-- The operation of a backend. -/
def run (be : Backend α) (dst : Shape) : Elementwise α → Update (Elements α) Unit
  | accumulate src offset len => be.accumulate src offset len dst
  | maccumulate src offset len => be.maccumulate src offset len dst
  | scale factor offset len => be.scale factor offset len dst
  | saxpy alpha x xOffset yOffset limit => be.saxpy alpha x xOffset yOffset limit dst
  | sxpby beta x xOffset yOffset limit => be.sxpby beta x xOffset yOffset limit dst

/-- A pool leaves to the reference loops what is not full precision. -/
theorem vector_of_dtype_ne (p : Pool) (op : Elementwise α) (dst : Shape) {e : Elements α}
    (hd : e.dtype ≠ .f32) : op.run (.vector p) dst e = op.run .reference dst e := by
  cases op <;> exact if_neg hd

/-- A backend does the operations as the reference backend or as some pool. -/
theorem run_eq_or (be : Backend α) (op : Elementwise α) (dst : Shape) :
    op.run be dst = op.run .reference dst ∨ ∃ p, op.run be dst = op.run (.vector p) dst := by
  cases be with
  | reference => exact .inl rfl
  | vector p => exact .inr ⟨p, rfl⟩
  | native n => exact .inr ⟨n.pool, by cases op <;> rfl⟩

/-- What an operation checks before it writes. -/
def check (dst : Shape) : Elementwise α → Outcome Unit
  | accumulate src offset len => do
    let _ ← checkRows "accumulate" dst src offset len
    return ()
  | maccumulate src offset len => do
    let _ ← checkRows "maccumulate" dst src offset len
    return ()
  | scale _ offset len => checkWindow "scale" dst.last offset len
  | saxpy _ x xOffset yOffset limit => do
    let _ ← Reference.checkPair "saxpy" x dst xOffset yOffset limit
    return ()
  | sxpby _ x xOffset yOffset limit => do
    let _ ← Reference.checkPair "sxpby" x dst xOffset yOffset limit
    return ()

/-- The operand that is read. -/
def source? : Elementwise α → Option (View α)
  | accumulate src .. | maccumulate src .. => some src
  | scale .. => none
  | saxpy _ x .. | sxpby _ x .. => some x

/-- The window that is changed: columns of every row, or a run of the flattened
destination. -/
def Covers (dst : Shape) (p : Nat) : Elementwise α → Prop
  | accumulate _ offset len | maccumulate _ offset len | scale _ offset len =>
    p < dst.size ∧ offset ≤ p % dst.last ∧ p % dst.last < offset + len
  | saxpy _ _ _ yOffset limit | sxpby _ _ _ yOffset limit => yOffset ≤ p ∧ p < yOffset + limit

/-- The source element at the column of element `p` of the destination: in its
row, or in row 0 of a single-row source. -/
def sourceValue (src : View α) (dst : Shape) (p : Nat) : α :=
  src.elems.value (if src.shape.rowCount = dst.rowCount then p else p % dst.last)

/-- What an operation makes of element `p` with value `v`. -/
def formula (dst : Shape) (op : Elementwise α) (p : Nat) (v : α) : α :=
  match op with
  | accumulate src _ _ => v + sourceValue src dst p
  | maccumulate src _ _ => v * sourceValue src dst p
  | scale factor _ _ => v * factor
  | saxpy alpha x xOffset yOffset _ => alpha * x.elems.value (xOffset + (p - yOffset)) + v
  | sxpby beta x xOffset yOffset _ => x.elems.value (xOffset + (p - yOffset)) + beta * v

/-- The window rewritten by the formula. -/
def rewrite (dst : Shape) (op : Elementwise α) (e : Elements α) : Elements α :=
  match op with
  | accumulate _ offset len | maccumulate _ offset len | scale _ offset len =>
    e.rewriteRows (List.range dst.rowCount) dst.last offset len (op.formula dst)
  | saxpy _ _ _ yOffset limit | sxpby _ _ _ yOffset limit =>
    e.rewriteRange yOffset limit (op.formula dst)

/-- Rewriting the window changes each of its cells by the formula and no other. -/
theorem rewrite_changes {dst : Shape} {op : Elementwise α} {e : Elements α}
    (hq : e.dtype.isQuantized = false) (hle : dst.size ≤ e.size) (hcheck : op.check dst = .ok ()) :
    Changes cell? (fun e' : Elements α => e'.layout = e.layout) (op.rewrite dst)
      (fun p => op.Covers dst p) (recode e.dtype (op.formula dst)) := by
  have hrows {offset len : Nat} (g : Nat → α → α) (hw : offset + len ≤ dst.last) :
      Changes cell? (fun e' : Elements α => e'.layout = e.layout)
        (rewriteRows (List.range dst.rowCount) dst.last offset len g)
        (fun p => p < dst.size ∧ offset ≤ p % dst.last ∧ p % dst.last < offset + len)
        (recode e.dtype g) := by
    refine (rewriteRows_changes hq List.nodup_range g hw fun r hr => ?_).congr fun p => ?_
    · exact Nat.le_trans (dst.row_le (List.mem_range.mp hr)) hle
    · rw [List.mem_range, Nat.div_lt_iff_lt_mul dst.last_pos, dst.rowCount_mul_last]
  cases op with
  | accumulate src offset len | maccumulate src offset len =>
    obtain ⟨_, hrow, -⟩ := bind_eq_ok.mp hcheck
    exact hrows _ (checkRows_eq_ok hrow).1.window
  | scale factor offset len => exact hrows _ (checkWindow_eq_ok hcheck)
  | saxpy c x xOffset yOffset limit | sxpby c x xOffset yOffset limit =>
    obtain ⟨_, hpair, -⟩ := bind_eq_ok.mp hcheck
    have hw := (checkPair_eq_ok hpair).1.window
    exact rewriteRange_changes hq _ (by omega)

end Elementwise

end BlockTensor

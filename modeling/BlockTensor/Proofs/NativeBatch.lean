import BlockTensor.Proofs.Exact
import BlockTensor.Proofs.NativeCall

/-!
# Native batched dot products

What the calls of a plan store is what a batched dot product is meant to give.

* `operand_eq_value`: under the scale that a call names, an element has its
  value, so the windows of a call are those of the views (`aWindow_call`,
  `bWindow_call`).
* `Native.mem_written_calls`: the calls write the window of every row.
* `Native.batchDotProduct_meets` puts these together with the contract.
-/

namespace BlockTensor

open Outcome

variable {α : Type}

section

variable {result : Shape} {a b : View α} {w : BatchWindow} {e : Elements α} {g : Gemm}

/-- The calls write the window of every row. -/
theorem Native.mem_written_calls (n : Native α) {q : Nat} :
    q ∈ (n.calls g e.dtype (w.layout result a b) w).flatMap GemmCall.written ↔
      ∃ i < a.shape.first, ∃ r < w.rowChunk, q = (w.layout result a b).position i r := by
  simp only [List.mem_flatMap, Native.calls, List.mem_map, exists_exists_and_eq_and]
  constructor
  · rintro ⟨t, ht, hq⟩
    have hk := n.pool.chunk_le (n.pool.mem_order.mp ht)
    obtain ⟨i, hi, s, hs, rfl⟩ := GemmLayout.mem_written_call.mp hq
    exact ⟨i, hi, _, by omega, rfl⟩
  · rintro ⟨i, hi, r, hr, rfl⟩
    refine ⟨_, n.pool.mem_order.mpr (n.pool.div_chunk_lt hr), ?_⟩
    refine GemmLayout.mem_written_call.mpr
      ⟨i, hi, r % (n.pool.plan w.rowChunk).chunk, Nat.mod_lt _ (chunk_pos ..), ?_⟩
    rw [Nat.div_add_mod']

/-! ## Windows -/

variable [Scalar α]

/-- Under the scale of its block, an element has its value. -/
theorem operand_eq_value {x : Elements α} (hx : x.Scaled) {i : Nat} (hi : i < x.size) {scale : Int}
    (hs : x.dtype.isQuantized → scale = ((i / blockSize : Nat) : Int)) :
    GemmCall.operand x (i : Int) scale = x.value i := by
  cases x with
  | f32 data | f16 data | bf16 data =>
    have hi : i < data.size := hi
    simp only [GemmCall.operand, Int.toNat_natCast, Elements.value, Elements.cell?,
      Array.getD_eq_getD_getElem?, Array.getElem?_eq_getElem hi]
    rfl
  | q8 data scales =>
    obtain rfl := hs rfl
    have hi' : i < data.size := hi
    have hscale : i / blockSize < scales.size := Elements.div_block_lt_scaleCount hx rfl hi
    simp only [GemmCall.operand, Int.toNat_natCast, Elements.value, Elements.cell?,
      Array.getD_eq_getD_getElem?, Array.getElem?_eq_getElem hi', Array.getElem?_eq_getElem hscale]
    rfl
  | q4 data scales =>
    obtain rfl := hs rfl
    have hbyte : Q4.byteOf i < data.size := Elements.byteOf_lt_dataCount hx rfl hi
    have hscale : i / blockSize < scales.size := Elements.div_block_lt_scaleCount hx rfl hi
    simp only [GemmCall.operand, Int.toNat_natCast, Elements.value, Elements.cell?,
      Array.getD_eq_getD_getElem?, Array.getElem?_eq_getElem hbyte,
      Array.getElem?_eq_getElem hscale]
    rfl

/-- `n` columns of row `i` from `offset` on. -/
def View.window (v : View α) (i offset n : Nat) : Outcome (List α) :=
  (List.range n).mapM fun t => v.get [i, offset + t]

theorem View.window_eq {v : View α} (hv : v.WellFormed) (hr : v.shape.rank = 2)
    (hc : v.isContiguous = true) {i offset n : Nat} (hi : i < v.shape.first)
    (hn : offset + n ≤ v.shape.last) : v.window i offset n =
      .ok ((List.range n).map fun t => v.elems.value (i * v.shape.last + offset + t)) := by
  refine mapM_of_ok fun t ht => ?_
  have ht := List.mem_range.mp ht
  have hrange := (Shape.inRange_matrix hr).mpr
    ⟨hi, Nat.lt_of_lt_of_le (Nat.add_lt_add_left ht _) hn⟩
  have hlt := hv.reach hrange
  rw [View.get_eq hv hrange, Elements.get_eq_value hv.elems.scaled hlt,
    View.position_of_contiguous hc hrange, Shape.linear_matrix hr, Nat.add_assoc]

section

variable {flags : Int} {k count : Nat} (hf : BatchFits result a b w) (ha : a.WellFormed)
  (hb : b.WellFormed) (hp : g.Planned a.dtype b.dtype e.dtype a.shape.last b.shape.last w)

include hf hp

include ha in
theorem aWindow_call {i : Nat} (hi : i < a.shape.first) :
    a.window i w.aColumn w.columns = .ok
      (((w.layout result a b).call g e.dtype flags (w.bRow + k) count).aWindow a.elems i) := by
  obtain ⟨-, haq, -, -⟩ := Gemm.pair_quantized hp.pair
  rw [View.window_eq ha hf.aRank hf.aContiguous hi hf.aColumns]
  refine congrArg Except.ok (List.map_congr_left fun t ht => ?_)
  have hlt := Nat.lt_of_lt_of_le (Nat.add_lt_add_left (List.mem_range.mp ht) _) (hf.a_le ha hi)
  rw [GemmLayout.aPos_call]
  refine (operand_eq_value ha.elems.scaled hlt fun hq => ?_).symm
  obtain ⟨hrow, hcolumn⟩ := hp.aFits hq
  obtain rfl := haq.mp hq
  exact GemmLayout.aScalePos_call hrow hcolumn i t

include hb in
theorem bWindow_call {s : Nat} (hs : k + s < w.rowChunk) :
    b.window (w.bRow + k + s) w.bColumn w.columns = .ok
      (((w.layout result a b).call g e.dtype flags (w.bRow + k) count).bWindow b.elems
        ((w.bRow + k + s : Nat) : Int)) := by
  obtain ⟨-, -, hbq, hbytes⟩ := Gemm.pair_quantized hp.pair
  have hrow : w.bRow + k + s < b.shape.first := by
    have := hf.bRows
    omega
  rw [View.window_eq hb hf.bRank hf.bContiguous hrow hf.bColumns]
  refine congrArg Except.ok (List.map_congr_left fun t ht => ?_)
  have hle := hf.b_le hb hs
  rw [← Nat.add_assoc] at hle
  have hlt := Nat.lt_of_lt_of_le (Nat.add_lt_add_left (List.mem_range.mp ht) _) hle
  rw [GemmLayout.bPos_call fun hg => hp.bFits (hbq.mpr (hbytes.mpr hg))]
  refine (operand_eq_value hb.elems.scaled hlt fun hq => ?_).symm
  obtain ⟨hrow, hcolumn⟩ := hp.bFits hq
  exact GemmLayout.bScalePos_call (hbytes.mp (hbq.mp hq)) hrow hcolumn (w.bRow + k + s) t

end

/-! ## The whole product -/

/-- A dot product of the windows of row `i` of `a` and row `bRow + r` of `b`, for the
position of column `r` of the window of row `i`. -/
def BatchWindow.IsResult (w : BatchWindow) (IsDot : List α → List α → α → Prop) (result : Shape)
    (a b : View α) (p : Nat) (v : α) : Prop :=
  ∃ i < a.shape.first, ∃ r < w.rowChunk, p = (w.layout result a b).position i r ∧
    ∃ xs ys, a.window i w.aColumn w.columns = .ok xs ∧
      b.window (w.bRow + r) w.bColumn w.columns = .ok ys ∧ IsDot xs ys v

namespace Native

variable (n : Native α) {IsDot : List α → List α → α → Prop}

/-- All calls together store a result in each position that they write. -/
theorem calls_stored (hn : n.table.Meets IsDot) (hf : BatchFits result a b w) (ha : a.WellFormed)
    (hb : b.WellFormed) (he : result.size ≤ e.size)
    (hp : g.Planned a.dtype b.dtype e.dtype a.shape.last b.shape.last w) :
    Stored ((n.calls g e.dtype (w.layout result a b) w).flatMap GemmCall.written)
      (w.IsResult IsDot result a b) e
      ((n.calls g e.dtype (w.layout result a b) w).foldl
        (fun r c => n.table.run c a.elems b.elems r) e) := by
  refine foldl_stored fun c hc d hd => ?_
  obtain ⟨t, ht, rfl⟩ := List.mem_map.mp hc
  have hk := n.pool.chunk_le (n.pool.mem_order.mp ht)
  refine (hn _ _ _ _ ((call_accepted hf ha hb he hp hk).of_layout hd)).mono ?_
  rintro p v ⟨ij, hij, rfl, hdot⟩
  obtain ⟨i, hi, s, hs, rfl⟩ := GemmLayout.mem_tiles_call.mp hij
  refine ⟨i, hi, _, by omega, GemmLayout.place_call, _, _, aWindow_call hf ha hp hi, ?_, hdot⟩
  rw [← Nat.add_assoc]
  exact bWindow_call hf hb hp (by omega)

/-- A kernel library that meets its contract multiplies matrices: of every call,
each index lies inside its buffer, no two tiles have the same position, and
afterwards the window of the result holds a dot product of each row of `a` and
each row of `b` that it names, and every other element is what it was. -/
theorem batchDotProduct_meets (hn : n.table.Meets IsDot) (a b : View α) (w : BatchWindow)
    (result : Shape) (e : Elements α) (g : Gemm) (ha : a.WellFormed) (hb : b.WellFormed)
    (he : result.size ≤ e.size) (hw : checkBatch result a b w = .ok ())
    (hk : FitsKernel result a b w)
    (hg : Gemm.plan a.dtype b.dtype e.dtype a.shape.last b.shape.last w = some g) :
    ∃ calls e', n.batchDotProduct a b w result e = .ok calls e' ∧
      (∀ c ∈ calls, c.InBounds a.elems b.elems e) ∧ (calls.flatMap GemmCall.written).Nodup ∧
      (∀ i < a.shape.first, ∀ j, w.bRow ≤ j → j < w.bRow + w.rowChunk →
        ∃ xs ys v, a.window i w.aColumn w.columns = .ok xs ∧
          b.window j w.bColumn w.columns = .ok ys ∧ IsDot xs ys v ∧
          e'.Holds (Shape.linear result.dims [i, w.rColumn + (j - w.bRow)]) v) ∧
      (∀ p, (∀ i < a.shape.first, ∀ j, w.bRow ≤ j → j < w.bRow + w.rowChunk →
          p ≠ Shape.linear result.dims [i, w.rColumn + (j - w.bRow)]) → e'.cell? p = e.cell? p) ∧
      e'.layout = e.layout := by
  have hf := checkBatch_eq_ok hw
  have hp := Gemm.plan_eq_some hg
  have hstored := n.calls_stored hn hf ha hb he hp
  have hposition (i r : Nat) : (w.layout result a b).position i r =
      Shape.linear result.dims [i, w.rColumn + r] := by
    rw [Shape.linear_matrix hf.resultRank, ← Nat.add_assoc]
    rfl
  refine ⟨n.calls g e.dtype (w.layout result a b) w, _, ?_, fun c hc => ?_, ?_,
    fun i hi j hlo hhi => ?_, fun p hp => hstored.frame p fun hq => ?_, hstored.layout⟩
  · have hlayout : (do
        let layout ← GemmLayout.of result a b w
        checkDestination a.dtype e.dtype
        return layout) = .ok (w.layout result a b) := by
      rw [GemmLayout.of_eq hk, ok_bind, checkDestination, if_pos (Gemm.stores_eq_true hp.stores)]
      rfl
    rw [batchDotProduct, hw]
    dsimp only
    rw [hg]
    dsimp only
    rw [hlayout]
  · obtain ⟨t, ht, rfl⟩ := List.mem_map.mp hc
    exact call_inBounds hf ha hb he hp (n.pool.chunk_le (n.pool.mem_order.mp ht))
  · rw [calls, List.flatMap_map]
    exact GemmLayout.nodup_written n.pool hf.rColumns
  · obtain ⟨r, rfl⟩ := Nat.exists_eq_add_of_le hlo
    have hr : r < w.rowChunk := by omega
    obtain ⟨v, ⟨i', -, r', hr', hpos, xs, ys, hxs, hys, hdot⟩, hold⟩ :=
      hstored.holds _ (n.mem_written_calls.mpr ⟨i, hi, r, hr, rfl⟩)
    -- a position has one row and one column
    obtain ⟨rfl, rfl⟩ := GemmLayout.position_inj hf.rColumns hr hr' hpos
    rw [Nat.add_sub_cancel_left, ← hposition]
    exact ⟨xs, ys, v, hxs, hys, hdot, hold⟩
  · obtain ⟨i, hi, r, hr, rfl⟩ := n.mem_written_calls.mp hq
    refine hp i hi (w.bRow + r) (Nat.le_add_right ..) (by omega) ?_
    rw [hposition, Nat.add_sub_cancel_left]

end Native

end

/-- A row of bytes, each two. -/
def byteRow : View ℤ := ⟨⟨[1, 64], by decide, by decide⟩, [64, 1], .q8 (.replicate 64 1) #[2, 2]⟩

/-- Two rows of ones in nibbles, each block under a scale of its own. -/
def nibbleRows : View ℤ :=
  ⟨⟨[2, 64], by decide, by decide⟩, [64, 1], .q4 (.replicate 64 0x99) #[1, 1, 3, 5]⟩

/-- One row for two products. -/
def productRow : Shape := ⟨[1, 2], by decide, by decide⟩

/-- The second blocks, and the second row of `b` as the first column of the result. -/
def secondRow : BatchWindow := ⟨32, 32, 32, 0, 1, 1⟩

/-- Two workers on the sums from left to right. -/
def twoWorkers : Native ℤ := ⟨.elementwise, 0, .ofThreads 1 2⟩

set_option maxRecDepth 2000 in
theorem Native.batchDotProduct_meets_secondRow :
    byteRow.WellFormed ∧ nibbleRows.WellFormed ∧
      (KernelTable.elementwise : KernelTable ℤ).Meets (fun xs ys v => v = sumOfProducts xs ys) ∧
      checkBatch productRow byteRow nibbleRows secondRow = .ok () ∧
      FitsKernel productRow byteRow nibbleRows secondRow ∧
      Gemm.plan .q8 .q4 .f32 64 64 secondRow = some .q8Q4 ∧
      ∃ calls, twoWorkers.batchDotProduct byteRow nibbleRows secondRow productRow (.f32 #[7, 7]) =
          .ok calls (.f32 #[320, 7]) ∧
        ∀ c ∈ calls, c.InBounds byteRow.elems nibbleRows.elems (.f32 #[7, 7]) := by
  have ha : byteRow.WellFormed := View.wellFormed_of ⟨rfl, by decide⟩ (by decide)
  have hb : nibbleRows.WellFormed := View.wellFormed_of ⟨rfl, by decide⟩ (by decide)
  have hn : (KernelTable.elementwise : KernelTable ℤ).Meets fun xs ys v =>
      v = sumOfProducts xs ys := KernelTable.elementwise_meets
  have hw : checkBatch productRow byteRow nibbleRows secondRow = .ok () := rfl
  have hk : FitsKernel productRow byteRow nibbleRows secondRow := by
    unfold FitsKernel
    decide
  have hg : Gemm.plan .q8 .q4 .f32 64 64 secondRow = some .q8Q4 := rfl
  obtain ⟨calls, e', hrun, hbounds, -⟩ := twoWorkers.batchDotProduct_meets hn byteRow nibbleRows
    secondRow productRow (.f32 #[7, 7]) .q8Q4 ha hb (by decide) hw hk hg
  have hval : twoWorkers.batchDotProduct byteRow nibbleRows secondRow productRow (.f32 #[7, 7]) =
      .ok (twoWorkers.calls .q8Q4 .f32 (secondRow.layout productRow byteRow nibbleRows) secondRow)
        (.f32 #[320, 7]) := by
    rw [Native.batchDotProduct]
    rfl
  rw [hrun] at hval
  obtain ⟨rfl, rfl⟩ := EStateM.Result.ok.inj hval
  exact ⟨ha, hb, hn, hw, hk, hg, _, hrun, hbounds⟩

end BlockTensor

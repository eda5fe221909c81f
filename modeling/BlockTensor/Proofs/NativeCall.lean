import Mathlib.Data.List.Nodup
import Mathlib.Tactic.Ring
import BlockTensor.Backend.Native.Basic
import BlockTensor.Proofs.Batch
import BlockTensor.Proofs.Fill
import BlockTensor.Proofs.KernelContract

/-!
# Native calls

A batched dot product that a kernel library takes becomes one call for each run
of rows of `b`. Offsets and strides are turned into the units of the kernel,
which is exact where `Gemm.plan` has a kernel (`Gemm.Planned`):

* `aPos_call`, `bPos_call`, `rPos_call`: the indices of a call are positions of
  the operands and the result, and its scales those of their blocks;
* `nodup_written`: no two calls write the same position;
* `call_inBounds`, `call_accepted`: every call stays in its buffers and obeys the
  rules of the library.
-/

namespace BlockTensor

open Outcome

variable {α : Type}

/-! ## Plans -/

namespace Gemm

/-- A kernel for the encodings, and whole blocks wherever they are quantized. -/
structure Planned (g : Gemm) (a b r : DType) (aRow bRow : Nat) (w : BatchWindow) : Prop where
  pair : ofPair? a b = some g
  stores : g.stores r = true
  columns : 0 < w.columns ∧ w.columns % blockSize = 0
  aFits : a.isQuantized → aRow % blockSize = 0 ∧ w.aColumn % blockSize = 0
  bFits : b.isQuantized → bRow % blockSize = 0 ∧ w.bColumn % blockSize = 0

theorem layoutFits_eq_true {d : DType} {row offset : Nat} (h : layoutFits d row offset = true)
    (hq : d.isQuantized) : row % blockSize = 0 ∧ offset % blockSize = 0 := by
  simpa [layoutFits, hq] using h

theorem plan_eq_some {a b r : DType} {aRow bRow : Nat} {w : BatchWindow} {g : Gemm}
    (h : plan a b r aRow bRow w = some g) : g.Planned a b r aRow bRow w := by
  unfold plan at h
  split at h
  · nomatch h
  rename_i hcolumns
  split at h
  · nomatch h
  rename_i k hpair
  split at h
  · obtain rfl := Option.some.inj h
    rename_i hfits
    simp only [Bool.and_eq_true] at hfits
    obtain ⟨⟨hstores, ha⟩, hb⟩ := hfits
    exact ⟨hpair, hstores, by omega, layoutFits_eq_true ha, layoutFits_eq_true hb⟩
  · nomatch h

/-- The kernel of a pair says which of its operands are quantized, and how. -/
theorem pair_quantized {a b : DType} {g : Gemm} (h : ofPair? a b = some g) :
    a ≠ .q4 ∧ (a.isQuantized ↔ g = .q8Q4) ∧ (b.isQuantized ↔ b = .q4) ∧
      (b = .q4 ↔ g = .f32Q4 ∨ g = .q8Q4) := by
  cases a <;> cases b <;> simp_all [ofPair?, DType.isQuantized] <;> subst h <;> simp

end Gemm

/-! ## Calls -/

/-- The numbers of a batched dot product fit in a kernel's integers. -/
def FitsKernel (result : Shape) (a b : View α) (w : BatchWindow) : Prop :=
  ∀ n ∈ [a.shape.first, w.columns, a.shape.last, b.shape.last, result.last, w.aColumn, w.bColumn,
    w.bRow, w.rColumn, w.bRow + w.rowChunk], n < 0x80000000

/-- The layout of a batched dot product. -/
def BatchWindow.layout (w : BatchWindow) (result : Shape) (a b : View α) : GemmLayout :=
  ⟨a.shape.first, w.columns, a.shape.last, b.shape.last, result.last, w.aColumn, w.bColumn, w.bRow,
    w.rColumn⟩

namespace GemmLayout

theorem of_eq {result : Shape} {a b : View α} {w : BatchWindow} (h : FitsKernel result a b w) :
    of result a b w = .ok (w.layout result a b) := by
  have hcheck : ∀ n ∈ [a.shape.first, w.columns, a.shape.last, b.shape.last, result.last, w.aColumn,
      w.bColumn, w.bRow, w.rColumn, w.bRow + w.rowChunk], checkKernelRange n = .ok () :=
    fun n hn => if_pos (h n hn)
  simp only [List.forall_mem_cons] at hcheck
  obtain ⟨h₁, h₂, h₃, h₄, h₅, h₆, h₇, h₈, h₉, h₁₀, -⟩ := hcheck
  rw [of, h₁, h₂, h₃, h₄, h₅, h₆, h₇, h₈, h₉, h₁₀]
  rfl

variable {l : GemmLayout} {g : Gemm} {d : DType} {flags : Int} {first count : Nat}

theorem mem_tiles_call {ij : Int × Int} : ij ∈ (l.call g d flags first count).tiles ↔
    ∃ i < l.rows, ∃ s < count, ij = ((i : Int), ((first + s : Nat) : Int)) := by
  simp only [GemmCall.tiles, call, List.mem_flatMap, List.mem_range, List.mem_map,
    Int.toNat_natCast, Int.natCast_add]
  constructor
  · rintro ⟨i, hi, s, hs, rfl⟩
    exact ⟨i, hi, s, hs, rfl⟩
  · rintro ⟨i, hi, s, hs, rfl⟩
    exact ⟨i, hi, s, hs, rfl⟩

theorem aPos_call (i t : Nat) : (l.call g d flags first count).aPos i t =
    ((i * l.aStride + l.aOffset + t : Nat) : Int) := by
  simp only [GemmCall.aPos, call, Int.natCast_add, Int.natCast_mul, Int.mul_comm]

theorem rPos_call (i r : Nat) : (l.call g d flags first count).rPos i ((l.bRow + r : Nat) : Int) =
    ((i * l.rStride + l.rColumn + r : Nat) : Int) := by
  simp only [GemmCall.rPos, call, Int.natCast_add, Int.natCast_mul, Int.mul_comm]
  omega

/-- The scale of an element of a row of whole blocks. -/
theorem row_div_block {stride offset : Nat} (hs : stride % blockSize = 0)
    (ho : offset % blockSize = 0) (i t : Nat) :
    (i * stride + offset + t) / blockSize = stride / blockSize * i + (offset + t) / blockSize := by
  obtain ⟨k, rfl⟩ := Nat.dvd_of_mod_eq_zero hs
  obtain ⟨m, rfl⟩ := Nat.dvd_of_mod_eq_zero ho
  rw [Nat.mul_div_cancel_left _ (by decide), Nat.add_assoc, Nat.mul_left_comm,
    Nat.mul_add_div (by decide), Nat.mul_comm i k]

theorem aScalePos_call (hs : l.aStride % blockSize = 0) (ho : l.aOffset % blockSize = 0)
    (i t : Nat) : (l.call .q8Q4 d flags first count).aScalePos i t =
      (((i * l.aStride + l.aOffset + t) / blockSize : Nat) : Int) := by
  rw [row_div_block hs ho]
  simp [GemmCall.aScalePos, call]

/-- The bytes before a row of whole blocks. -/
theorem row_bytes {stride offset : Nat} (hs : stride % blockSize = 0)
    (ho : offset % blockSize = 0) (j : Nat) :
    (j * stride + offset) / blockSize * q4BlockBytes = stride / 2 * j + offset / 2 := by
  obtain ⟨k, rfl⟩ := Nat.dvd_of_mod_eq_zero hs
  obtain ⟨m, rfl⟩ := Nat.dvd_of_mod_eq_zero ho
  have hk : blockSize * k / 2 = q4BlockBytes * k := by
    simp only [blockSize, q4BlockBytes]
    omega
  have hm : blockSize * m / 2 = q4BlockBytes * m := by
    simp only [blockSize, q4BlockBytes]
    omega
  rw [hk, hm, Nat.mul_left_comm, ← Nat.mul_add, Nat.mul_div_cancel_left _ (by decide)]
  ring

theorem bPos_call
    (h : g = .f32Q4 ∨ g = .q8Q4 → l.bStride % blockSize = 0 ∧ l.bOffset % blockSize = 0)
    (j t : Nat) : (l.call g d flags first count).bPos j t =
      ((j * l.bStride + l.bOffset + t : Nat) : Int) := by
  by_cases hg : g = .f32Q4 ∨ g = .q8Q4
  · obtain ⟨hs, ho⟩ := h hg
    have hstride : 2 * ((l.bStride / 2 : Nat) : Int) = l.bStride := by
      simp only [blockSize] at hs
      omega
    have hoffset : 2 * ((l.bOffset / 2 : Nat) : Int) = l.bOffset := by
      simp only [blockSize] at ho
      omega
    simp only [GemmCall.bPos, GemmCall.bUnit, call, if_pos hg]
    rw [Int.mul_add, ← Int.mul_assoc, hstride, hoffset]
    push_cast
    ring
  · simp only [GemmCall.bPos, GemmCall.bUnit, call, if_neg hg]
    push_cast
    ring

theorem bData_call (hg : g = .f32Q4 ∨ g = .q8Q4) (hs : l.bStride % blockSize = 0)
    (ho : l.bOffset % blockSize = 0) (j t : Nat) : (l.call g d flags first count).bData j t =
      (Q4.byteOf (j * l.bStride + l.bOffset + t) : Int) := by
  have hrow : (j * l.bStride + l.bOffset) % blockSize = 0 := by
    rw [Nat.add_mod, Nat.mul_mod, hs, ho]
    rfl
  rw [byteOf_add hrow, row_bytes hs ho]
  simp only [GemmCall.bData, GemmCall.bUnit, call, if_pos hg, if_true, Int.natCast_add,
    Int.natCast_mul]

theorem bData_of_elements (hg : ¬(g = .f32Q4 ∨ g = .q8Q4)) (j : Int) (t : Nat) :
    (l.call g d flags first count).bData j t = (l.call g d flags first count).bPos j t := by
  simp only [GemmCall.bData, GemmCall.bUnit, call, if_neg hg]
  rfl

theorem bScalePos_call (hg : g = .f32Q4 ∨ g = .q8Q4) (hs : l.bStride % blockSize = 0)
    (ho : l.bOffset % blockSize = 0) (j t : Nat) : (l.call g d flags first count).bScalePos j t =
      (((j * l.bStride + l.bOffset + t) / blockSize : Nat) : Int) := by
  have hoffset : (2 : Int) * ((l.bOffset / 2 : Nat) : Int) = l.bOffset := by
    simp only [blockSize] at ho
    omega
  rw [row_div_block hs ho]
  simp only [GemmCall.bScalePos, GemmCall.bUnit, call, if_pos hg, hoffset, Option.getD_some]
  push_cast
  rfl

/-! ## Positions of the results -/

/-- Column `r` of the window of row `i` of the result. -/
def position (l : GemmLayout) (i r : Nat) : Nat := i * l.rStride + l.rColumn + r

theorem mul_add_inj {n i i' r r' : Nat} (hr : r < n) (hr' : r' < n)
    (h : i * n + r = i' * n + r') : i = i' ∧ r = r' := by
  have hdiv := congrArg (· / n) h
  simp only [Nat.mul_comm _ n, Nat.mul_add_div (Nat.zero_lt_of_lt hr), Nat.div_eq_of_lt hr,
    Nat.div_eq_of_lt hr', Nat.add_zero] at hdiv
  subst hdiv
  exact ⟨rfl, Nat.add_left_cancel h⟩

theorem position_inj {n i i' r r' : Nat} (hn : l.rColumn + n ≤ l.rStride) (hr : r < n)
    (hr' : r' < n) (h : l.position i r = l.position i' r') : i = i' ∧ r = r' := by
  rw [position, position, Nat.add_assoc, Nat.add_assoc] at h
  obtain ⟨hi, hcolumn⟩ := mul_add_inj (by omega) (by omega) h
  exact ⟨hi, Nat.add_left_cancel hcolumn⟩

theorem place_call {k i s : Nat} : (l.call g d flags (l.bRow + k) count).place
    ((i : Int), ((l.bRow + k + s : Nat) : Int)) = l.position i (k + s) := by
  rw [GemmCall.place, Nat.add_assoc, rPos_call, Int.toNat_natCast]
  rfl

theorem mem_written_call {k q : Nat} : q ∈ (l.call g d flags (l.bRow + k) count).written ↔
    ∃ i < l.rows, ∃ s < count, q = l.position i (k + s) := by
  simp only [GemmCall.written, List.mem_map, mem_tiles_call]
  constructor
  · rintro ⟨_, ⟨i, hi, s, hs, rfl⟩, rfl⟩
    exact ⟨i, hi, s, hs, place_call⟩
  · rintro ⟨i, hi, s, hs, rfl⟩
    exact ⟨_, ⟨i, hi, s, hs, rfl⟩, place_call⟩

theorem nodup_tiles (c : GemmCall) : c.tiles.Nodup := by
  refine List.nodup_flatMap.mpr ⟨fun i _ => ?_, ?_⟩
  · refine List.nodup_range.map fun s s' h => ?_
    have h := congrArg Prod.snd h
    dsimp only at h
    omega
  · refine List.nodup_range.imp fun hne p hp hp' => ?_
    obtain ⟨_, -, rfl⟩ := List.mem_map.mp hp
    obtain ⟨_, -, h⟩ := List.mem_map.mp hp'
    exact hne (Int.natCast_inj.mp (congrArg Prod.fst h)).symm

/-- The tiles of a call have positions of their own. -/
theorem nodup_written_call {n k : Nat} (hn : l.rColumn + n ≤ l.rStride) (hk : k + count ≤ n) :
    (l.call g d flags (l.bRow + k) count).written.Nodup := by
  refine List.Nodup.map_on ?_ (nodup_tiles _)
  intro p hp q hq h
  obtain ⟨i, -, s, hs, rfl⟩ := mem_tiles_call.mp hp
  obtain ⟨i', -, s', hs', rfl⟩ := mem_tiles_call.mp hq
  rw [place_call, place_call] at h
  obtain ⟨rfl, hr⟩ := position_inj hn (by omega) (by omega) h
  rw [Nat.add_left_cancel hr]

/-- So have the tiles of all calls of a pool. -/
theorem nodup_written (p : Pool) {n : Nat} (hn : l.rColumn + n ≤ l.rStride) :
    ((p.order n).flatMap fun t =>
      (l.call g d flags (l.bRow + t * (p.plan n).chunk) (p.plan n).chunk).written).Nodup := by
  refine List.nodup_flatMap.mpr ⟨fun t ht => ?_, ?_⟩
  · exact nodup_written_call hn (p.chunk_le (p.mem_order.mp ht))
  · have horder : (p.order n).Nodup := (p.schedule.perm _).nodup_iff.mpr List.nodup_range
    refine List.Pairwise.imp_of_mem (fun {t t'} ht ht' hne q hq hq' => hne ?_) horder
    have hle := p.chunk_le (p.mem_order.mp ht)
    have hle' := p.chunk_le (p.mem_order.mp ht')
    obtain ⟨i, -, s, hs, rfl⟩ := mem_written_call.mp hq
    obtain ⟨i', -, s', hs', h⟩ := mem_written_call.mp hq'
    obtain ⟨-, hr⟩ := position_inj hn (by omega) (by omega) h
    exact (mul_add_inj hs hs' hr).1

end GemmLayout

/-! ## Calls that obey the rules -/

section

variable {result : Shape} {a b : View α} {w : BatchWindow} {e : Elements α} {g : Gemm}

theorem inside_natCast {i n : Nat} : Inside (i : Int) n ↔ i < n := by
  simp [Inside]

theorem natCast_mod_eq_zero {n m : Nat} (h : n % m = 0) : (n : Int) % (m : Int) = 0 := by
  exact_mod_cast h

open GemmLayout in
theorem call_inBounds (hf : BatchFits result a b w) (ha : a.WellFormed) (hb : b.WellFormed)
    (he : result.size ≤ e.size)
    (hp : g.Planned a.dtype b.dtype e.dtype a.shape.last b.shape.last w) {flags : Int}
    {k count : Nat} (hk : k + count ≤ w.rowChunk) :
    ((w.layout result a b).call g e.dtype flags (w.bRow + k) count).InBounds a.elems b.elems e := by
  obtain ⟨ha4, haq, hbq, hbytes⟩ := Gemm.pair_quantized hp.pair
  have hasize {i t : Nat} (hi : i < a.shape.first) (ht : t < w.columns) :
      i * a.shape.last + w.aColumn + t < a.elems.size :=
    Nat.lt_of_lt_of_le (Nat.add_lt_add_left ht _) (hf.a_le ha hi)
  have hbsize {s t : Nat} (hs : s < count) (ht : t < w.columns) :
      (w.bRow + k + s) * b.shape.last + w.bColumn + t < b.elems.size := by
    rw [Nat.add_assoc w.bRow]
    exact Nat.lt_of_lt_of_le (Nat.add_lt_add_left ht _) (hf.b_le hb (by omega))
  have hr4 : e.dtype ≠ .q4 := by
    rcases Gemm.stores_eq_true hp.stores with h | h <;> rw [h] <;> nofun
  refine ⟨?_, fun hq => ?_, ?_, fun hq => ?_, ?_⟩
  · intro ij hij t ht
    obtain ⟨i, hi, s, hs, rfl⟩ := mem_tiles_call.mp hij
    rw [aPos_call, inside_natCast, Elements.dataCount_eq_size ha4]
    exact hasize hi ht
  · intro ij hij t ht
    obtain ⟨i, hi, s, hs, rfl⟩ := mem_tiles_call.mp hij
    obtain ⟨hrow, hcolumn⟩ := hp.aFits hq
    obtain rfl := haq.mp hq
    rw [aScalePos_call hrow hcolumn, inside_natCast]
    exact Elements.div_block_lt_scaleCount ha.elems.scaled hq (hasize hi ht)
  · intro ij hij t ht
    obtain ⟨i, hi, s, hs, rfl⟩ := mem_tiles_call.mp hij
    by_cases hd : b.dtype = .q4
    · obtain ⟨hrow, hcolumn⟩ := hp.bFits (hbq.mpr hd)
      rw [bData_call (hbytes.mp hd) hrow hcolumn, inside_natCast]
      exact Elements.byteOf_lt_dataCount hb.elems.scaled hd (hbsize hs ht)
    · have hunit : ¬(g = .f32Q4 ∨ g = .q8Q4) := fun hg => hd (hbytes.mpr hg)
      rw [bData_of_elements hunit, bPos_call fun hg => absurd hg hunit, inside_natCast,
        Elements.dataCount_eq_size hd]
      exact hbsize hs ht
  · intro ij hij t ht
    obtain ⟨i, hi, s, hs, rfl⟩ := mem_tiles_call.mp hij
    obtain ⟨hrow, hcolumn⟩ := hp.bFits hq
    rw [bScalePos_call (hbytes.mp (hbq.mp hq)) hrow hcolumn, inside_natCast]
    exact Elements.div_block_lt_scaleCount hb.elems.scaled hq (hbsize hs ht)
  · intro ij hij
    obtain ⟨i, hi, s, hs, rfl⟩ := mem_tiles_call.mp hij
    have hrow : w.bRow + k + s = (w.layout result a b).bRow + (k + s) := Nat.add_assoc ..
    dsimp only
    rw [hrow, rPos_call, inside_natCast, Elements.dataCount_eq_size hr4]
    exact Nat.lt_of_lt_of_le (Nat.add_lt_add_left (by omega) _) (Nat.le_trans (hf.r_le hi) he)

/-- Every call of a plan obeys the rules of the library. -/
theorem call_accepted (hf : BatchFits result a b w) (ha : a.WellFormed) (hb : b.WellFormed)
    (he : result.size ≤ e.size)
    (hp : g.Planned a.dtype b.dtype e.dtype a.shape.last b.shape.last w) {flags : Int}
    {k count : Nat} (hk : k + count ≤ w.rowChunk) :
    ((w.layout result a b).call g e.dtype flags (w.bRow + k) count).Accepted a.elems b.elems e := by
  obtain ⟨-, -, hbq, hbytes⟩ := Gemm.pair_quantized hp.pair
  obtain ⟨hpos, hmod⟩ := hp.columns
  refine ⟨hp.pair, rfl, hp.stores, ⟨?_, ?_⟩, fun hq => ?_, fun hq => ?_,
    call_inBounds hf ha hb he hp hk, GemmLayout.nodup_written_call hf.rColumns hk⟩
  · exact Int.natCast_pos.mpr hpos
  · exact natCast_mod_eq_zero hmod
  · obtain ⟨hrow, hcolumn⟩ := hp.aFits hq
    exact ⟨natCast_mod_eq_zero hcolumn, natCast_mod_eq_zero hrow⟩
  · obtain ⟨hrow, hcolumn⟩ := hp.bFits hq
    simp only [GemmLayout.call, if_pos (hbytes.mp (hbq.mp hq)), BatchWindow.layout]
    simp only [blockSize, q4BlockBytes] at *
    omega

end

end BlockTensor

import BlockTensor.Elements.Segment
import BlockTensor.Proofs.Layout

/-!
# Segments and the elements they own

A segment of an owner is meant for `count` elements of the `total` that the
owner has, and holds the blocks that they lie in. `Segment.Owns` is what is then
known of it: where it starts, and how many blocks and scales it holds.

* `narrow_owns`, `splitAt_owns`: parts of such a segment are such segments, so
  being one is a property that `Divides`.
* `put_cell`: what is written to it leaves every other element of the owner as
  it was, if its elements end on a block or with the owner.
* `put_fillZero`: if they do not, zeroing the segment zeroes the next element.
-/

namespace BlockTensor

open Outcome

namespace Segment

variable {α : Type}

/-- A segment that holds the blocks of `count` elements of an owner with `total`
elements. One that reaches the end may hold fewer scales, if the owner does. -/
structure Owns (owner : Elements α) (total : Nat) (s : Segment α) (count : Nat) : Prop where
  dtype : s.elems.dtype = owner.dtype
  size : s.elems.size = owner.dtype.blocksFor count * owner.dtype.blockSize
  aligned : s.start % owner.dtype.blockSize = 0
  within : s.start + count ≤ total
  inScales : owner.dtype.isQuantized → s.start / blockSize + s.elems.scaleCount ≤ owner.scaleCount
  scales : owner.dtype.isQuantized →
    s.elems.scaleCount = blocksOf count ∨ s.start + count = total

section

variable {owner : Elements α} {total lo count : Nat} {e : Elements α}

theorem owns_float (hq : e.dtype.isQuantized = false) : Owns owner total ⟨lo, e⟩ count ↔
    owner.dtype = e.dtype ∧ e.size = count ∧ lo + count ≤ total := by
  have hcount : e.dtype.blocksFor count * e.dtype.blockSize = count := by
    simp [DType.blocksFor, DType.blockSize, hq]
  have hone : e.dtype.blockSize = 1 := by simp [DType.blockSize, hq]
  constructor
  · rintro ⟨hd, hs, -, hw, -, -⟩
    rw [← hd] at hs
    exact ⟨hd.symm, hs.trans hcount, hw⟩
  · rintro ⟨hd, hs, hw⟩
    refine ⟨hd.symm, ?_, ?_, hw, ?_, ?_⟩ <;> rw [hd]
    · exact hs.trans hcount.symm
    · rw [hone]
      exact Nat.mod_one _
    · simp [hq]
    · simp [hq]

theorem size_eq_blocks (hq : e.dtype.isQuantized) (n : Nat) :
    e.size = n * blockSize ↔ e.dataCount = n * e.dtype.unitBytes := by
  cases e with
  | q8 data scales => rfl
  | q4 data scales =>
    show data.size * 2 = n * blockSize ↔ data.size = n * q4BlockBytes
    simp only [blockSize, q4BlockBytes]
    omega
  | _ => cases hq

theorem owns_quantized (hq : e.dtype.isQuantized) : Owns owner total ⟨lo, e⟩ count ↔
    owner.dtype = e.dtype ∧ e.dataCount = blocksOf count * e.dtype.unitBytes ∧
      lo % blockSize = 0 ∧ lo + count ≤ total ∧
      lo / blockSize + e.scaleCount ≤ owner.scaleCount ∧
      (e.scaleCount = blocksOf count ∨ lo + count = total) := by
  have hblocks : e.dtype.blocksFor count = blocksOf count := by simp [DType.blocksFor, hq]
  have hblock : e.dtype.blockSize = blockSize := by simp [DType.blockSize, hq]
  constructor
  · rintro ⟨hd, hs, ha, hw, hi, hc⟩
    rw [← hd, hblock] at hs ha
    rw [hblocks] at hs
    rw [← hd] at hi hc
    exact ⟨hd.symm, (size_eq_blocks hq _).mp hs, ha, hw, hi hq, hc hq⟩
  · rintro ⟨hd, hs, ha, hw, hi, hc⟩
    refine ⟨hd.symm, ?_, ?_, hw, fun _ => hi, fun _ => hc⟩ <;> rw [hd, hblock]
    · rw [hblocks]
      exact (size_eq_blocks hq _).mpr hs
    · exact ha

end

theorem cut_size {β : Type} {a b : Array β} {lo hi : Nat} (h : Buffer.cut a lo hi = .ok b) :
    b.size = hi - lo ∧ lo ≤ hi ∧ hi ≤ a.size := by
  obtain ⟨hlo, hhi, rfl⟩ := Buffer.cut_eq_ok.mp h
  exact ⟨by rw [Array.size_extract, Nat.min_eq_left hhi], hlo, hhi⟩

theorem cutAt_size {β : Type} {a b c : Array β} {mid : Nat} (h : cutAt a mid = .ok (b, c)) :
    b.size = mid ∧ c.size = a.size - mid ∧ mid ≤ a.size := by
  obtain ⟨_, hb, h⟩ := bind_eq_ok.mp h
  obtain ⟨_, hc, h⟩ := bind_eq_ok.mp h
  obtain ⟨rfl, rfl⟩ := Prod.mk.inj (Except.ok.inj h)
  obtain ⟨hb, -, -⟩ := cut_size hb
  obtain ⟨hc, hle, -⟩ := cut_size hc
  exact ⟨hb, hc, hle⟩

/-- What remains of narrowing once the end of the range has been accepted. -/
def part (s : Segment α) (start len : Nat) : Outcome (Segment α) :=
  match s.elems with
  | .f32 data => return ⟨s.start + start, .f32 (← Buffer.cut data start (start + len))⟩
  | .f16 data => return ⟨s.start + start, .f16 (← Buffer.cut data start (start + len))⟩
  | .bf16 data => return ⟨s.start + start, .bf16 (← Buffer.cut data start (start + len))⟩
  | .q8 data scales => do
    checkAligned start
    let data ← Buffer.cut data (start / blockSize * blockSize) (blocksOf (start + len) * blockSize)
    return ⟨s.start + start,
      .q8 data (← Buffer.cut scales (start / blockSize) (blocksOf (start + len)))⟩
  | .q4 data scales => do
    checkAligned start
    let data ← Buffer.cut data (start / blockSize * q4BlockBytes)
      (blocksOf (start + len) * q4BlockBytes)
    return ⟨s.start + start,
      .q4 data (← Buffer.cut scales (start / blockSize) (blocksOf (start + len)))⟩

theorem part_of_narrow {s s' : Segment α} {start len : Nat} (h : s.narrow start len = .ok s') :
    s.part start len = .ok s' := by
  obtain ⟨_, -, h⟩ := bind_eq_ok.mp h
  dsimp only at h
  split at h
  · obtain ⟨_, -, h⟩ := bind_eq_ok.mp h
    exact h
  · exact h

theorem blocksOf_add {start : Nat} (h : start % blockSize = 0) (len : Nat) :
    blocksOf (start + len) = start / blockSize + blocksOf len := by
  simp only [blocksOf, blockSize] at *
  omega

theorem add_div_block {start : Nat} (h : start % blockSize = 0) (i : Nat) :
    (start + i) / blockSize = start / blockSize + i / blockSize := by
  simp only [blockSize] at *
  omega

theorem add_mod_block {start : Nat} (h : start % blockSize = 0) {i : Nat} (hi : i % blockSize = 0) :
    (start + i) % blockSize = 0 := by
  simp only [blockSize] at *
  omega

/-- A part of a segment is a segment for its own elements. -/
theorem narrow_owns {owner : Elements α} {total count start len : Nat} {s s' : Segment α}
    (hs : s.Owns owner total count) (hle : start + len ≤ count)
    (h : s.narrow start len = .ok s') :
    s'.start = s.start + start ∧ s'.Owns owner total len := by
  replace h := part_of_narrow h
  rcases s with ⟨lo, e⟩
  dsimp only [part] at h
  cases e with
  | f32 data | f16 data | bf16 data =>
    obtain ⟨new, hc, h⟩ := bind_eq_ok.mp h
    obtain rfl := Except.ok.inj h
    obtain ⟨hc, -, -⟩ := cut_size hc
    obtain ⟨hd, -, hw⟩ := (owns_float rfl).mp hs
    rw [Nat.add_sub_cancel_left] at hc
    exact ⟨rfl, (owns_float rfl).mpr ⟨hd, hc, by omega⟩⟩
  | q8 data scales | q4 data scales =>
    obtain ⟨_, ha, h⟩ := bind_eq_ok.mp h
    have ha := checkAligned_eq_ok ha
    obtain ⟨new, hc, h⟩ := bind_eq_ok.mp h
    obtain ⟨newScales, hcs, h⟩ := bind_eq_ok.mp h
    obtain rfl := Except.ok.inj h
    obtain ⟨hc, -, -⟩ := cut_size hc
    obtain ⟨hcs, -, hle'⟩ := cut_size hcs
    obtain ⟨hd, -, hm, hw, hin, -⟩ := (owns_quantized rfl).mp hs
    have hin : lo / blockSize + scales.size ≤ owner.scaleCount := hin
    rw [blocksOf_add ha] at hc hcs hle'
    rw [← Nat.sub_mul, Nat.add_sub_cancel_left] at hc
    rw [Nat.add_sub_cancel_left] at hcs
    refine ⟨rfl, (owns_quantized rfl).mpr
      ⟨hd, hc, add_mod_block hm ha, by omega, ?_, .inl hcs⟩⟩
    show (lo + start) / blockSize + newScales.size ≤ owner.scaleCount
    rw [add_div_block hm]
    omega

/-- Two halves of the buffers of whole blocks are segments for their elements. -/
theorem halves_own {owner : Elements α} {total lo count mid : Nat} {e a b : Elements α}
    (hs : Owns owner total ⟨lo, e⟩ count) (hq : e.dtype.isQuantized) (hle : mid ≤ count)
    (hmid : mid % blockSize = 0) (hda : a.dtype = e.dtype) (hdb : b.dtype = e.dtype)
    (ha : a.dataCount = mid / blockSize * e.dtype.unitBytes)
    (hb : b.dataCount = e.dataCount - mid / blockSize * e.dtype.unitBytes)
    (hsa : a.scaleCount = mid / blockSize) (hsb : b.scaleCount = e.scaleCount - mid / blockSize)
    (hse : mid / blockSize ≤ e.scaleCount) :
    Owns owner total ⟨lo, a⟩ mid ∧ Owns owner total ⟨lo + mid, b⟩ (count - mid) := by
  obtain ⟨hd, hsize, hm, hw, hin, hscales⟩ := (owns_quantized hq).mp hs
  have hfirst : blocksOf mid = mid / blockSize := blocksOf_add hmid 0
  have hsecond : blocksOf count = mid / blockSize + blocksOf (count - mid) := by
    rw [← blocksOf_add hmid, Nat.add_sub_cancel' hle]
  have hdiv := add_div_block hm mid
  constructor
  · refine (owns_quantized (hda ▸ hq)).mpr
      ⟨hd.trans hda.symm, ?_, hm, by omega, by omega, .inl (hsa.trans hfirst.symm)⟩
    rw [hda, ha, hfirst]
  · refine (owns_quantized (hdb ▸ hq)).mpr
      ⟨hd.trans hdb.symm, ?_, add_mod_block hm hmid, by omega, by omega, by omega⟩
    rw [hdb, hb, hsize, hsecond, Nat.add_mul, Nat.add_sub_cancel_left]

/-- The parts before and after an element are segments for their own elements. -/
theorem splitAt_owns {owner : Elements α} {total count mid : Nat} {s a b : Segment α}
    (hs : s.Owns owner total count) (hle : mid ≤ count) (h : s.splitAt mid = .ok (a, b)) :
    a.start = s.start ∧ a.Owns owner total mid ∧
      b.start = s.start + mid ∧ b.Owns owner total (count - mid) := by
  obtain ⟨_, -, h⟩ := bind_eq_ok.mp h
  rcases s with ⟨lo, e⟩
  dsimp only at h
  cases e with
  | f32 data | f16 data | bf16 data =>
    obtain ⟨⟨x, y⟩, hc, h⟩ := bind_eq_ok.mp h
    dsimp only at h
    obtain ⟨rfl, rfl⟩ := Prod.mk.inj (Except.ok.inj h)
    obtain ⟨hx, hy, -⟩ := cutAt_size hc
    obtain ⟨hd, hsize, hw⟩ := (owns_float rfl).mp hs
    have hsize : data.size = count := hsize
    exact ⟨rfl, (owns_float rfl).mpr ⟨hd, hx, by omega⟩, rfl,
      (owns_float rfl).mpr ⟨hd, hsize ▸ hy, by omega⟩⟩
  | q8 data scales =>
    obtain ⟨_, ha, h⟩ := bind_eq_ok.mp h
    have ha := checkAligned_eq_ok ha
    obtain ⟨⟨x, y⟩, hc, h⟩ := bind_eq_ok.mp h
    obtain ⟨⟨sx, sy⟩, hcs, h⟩ := bind_eq_ok.mp h
    dsimp only at h
    obtain ⟨rfl, rfl⟩ := Prod.mk.inj (Except.ok.inj h)
    obtain ⟨hx, hy, -⟩ := cutAt_size hc
    obtain ⟨hsx, hsy, hsle⟩ := cutAt_size hcs
    have hmid : mid / blockSize * blockSize = mid := Nat.div_mul_cancel (Nat.dvd_of_mod_eq_zero ha)
    rw [← hmid] at hx hy
    obtain ⟨hfirst, hsecond⟩ := halves_own (a := .q8 x sx) (b := .q8 y sy) hs rfl hle ha rfl rfl
      hx hy hsx hsy hsle
    exact ⟨rfl, hfirst, rfl, hsecond⟩
  | q4 data scales =>
    obtain ⟨_, ha, h⟩ := bind_eq_ok.mp h
    have ha := checkAligned_eq_ok ha
    obtain ⟨⟨x, y⟩, hc, h⟩ := bind_eq_ok.mp h
    obtain ⟨⟨sx, sy⟩, hcs, h⟩ := bind_eq_ok.mp h
    dsimp only at h
    obtain ⟨rfl, rfl⟩ := Prod.mk.inj (Except.ok.inj h)
    obtain ⟨hx, hy, -⟩ := cutAt_size hc
    obtain ⟨hsx, hsy, hsle⟩ := cutAt_size hcs
    have hmid : mid / blockSize * q4BlockBytes = mid / 2 := by
      simp only [blockSize, q4BlockBytes] at *
      omega
    rw [← hmid] at hx hy
    obtain ⟨hfirst, hsecond⟩ := halves_own (a := .q4 x sx) (b := .q4 y sy) hs rfl hle ha rfl rfl
      hx hy hsx hsy hsle
    exact ⟨rfl, hfirst, rfl, hsecond⟩

theorem Owns.of_layout {owner : Elements α} {total count : Nat} {s s' : Segment α}
    (hs : s.Owns owner total count) (hstart : s'.start = s.start)
    (h : s'.elems.layout = s.elems.layout) : s'.Owns owner total count where
  dtype := (Elements.dtype_eq_of_layout h).trans hs.dtype
  size := (Elements.size_eq_of_layout h).trans hs.size
  aligned := hstart ▸ hs.aligned
  within := hstart ▸ hs.within
  inScales hq := by
    rw [hstart, Elements.scaleCount_of_layout h]
    exact hs.inScales hq
  scales hq := by
    rw [hstart, Elements.scaleCount_of_layout h]
    exact hs.scales hq

/-- The elements of an owner are a segment of themselves. -/
theorem whole_owns {e : Elements α} {total : Nat}
    (h : e.size = e.dtype.blocksFor total * e.dtype.blockSize) : e.whole.Owns e total total where
  dtype := rfl
  size := h
  aligned := Nat.zero_mod _
  within := Nat.le_of_eq (Nat.zero_add _)
  inScales _ := Nat.le_of_eq (by simp [Elements.whole])
  scales _ := .inr (Nat.zero_add _)

/-- A property of segments for some elements each, which the parts of a segment
have with it, each for its own elements. -/
structure Divides (P : Segment α → Nat → Prop) : Prop where
  narrow : ∀ {s s' : Segment α} {count start len : Nat}, P s count → start + len ≤ count →
    s.narrow start len = .ok s' → s'.start = s.start + start ∧ P s' len
  splitAt : ∀ {s a b : Segment α} {count mid : Nat}, P s count → mid ≤ count →
    s.splitAt mid = .ok (a, b) →
      a.start = s.start ∧ P a mid ∧ b.start = s.start + mid ∧ P b (count - mid)

theorem owns_divides (owner : Elements α) (total : Nat) :
    Divides fun s count => s.Owns owner total count :=
  ⟨narrow_owns, splitAt_owns⟩

/-! ## Putting a segment back -/

theorem blit_outside {β : Type} {a b : Array β} {start i : Nat}
    (h : i < start ∨ start + b.size ≤ i) : (Buffer.blit a start b)[i]? = a[i]? := by
  rw [Buffer.getElem?_blit, if_neg (by omega)]

/-- An element outside such a range is outside its blocks, and before them if
the owner ends with the range. -/
theorem block_outside {lo count total p : Nat} (ha : lo % blockSize = 0)
    (hend : (lo + count) % blockSize = 0 ∨ lo + count = total) (hp : p < total)
    (hout : p < lo ∨ lo + count ≤ p) :
    p / blockSize < lo / blockSize ∨
      lo + count ≠ total ∧ lo / blockSize + blocksOf count ≤ p / blockSize := by
  simp only [blocksOf, blockSize] at *
  omega

/-- Floats that are put back leave the others alone. -/
theorem put_cell_float {owner e : Elements α} {lo p : Nat} (hd : owner.dtype = e.dtype)
    (hq : e.dtype.isQuantized = false) (hout : p < lo ∨ lo + e.size ≤ p) :
    (owner.put ⟨lo, e⟩).cell? p = owner.cell? p := by
  cases e with
  | f32 | f16 | bf16 =>
    cases owner <;> try cases hd
    simp only [Elements.put, Elements.cell?]
    rw [blit_outside hout]
  | q8 | q4 => cases hq

/-- What is put back leaves every element outside its range as it was, if the
range ends on a block or with the owner. -/
theorem put_cell {owner : Elements α} {total count p : Nat} {s : Segment α}
    (hs : s.Owns owner total count)
    (hend : (s.start + count) % owner.dtype.blockSize = 0 ∨ s.start + count = total)
    (hp : p < total) (hout : p < s.start ∨ s.start + count ≤ p) :
    (owner.put s).cell? p = owner.cell? p := by
  rcases s with ⟨lo, e⟩
  dsimp only at hend hout
  cases e with
  | f32 | f16 | bf16 =>
    obtain ⟨hd, hsize, -⟩ := (owns_float rfl).mp hs
    exact put_cell_float hd rfl (hsize ▸ hout)
  | q8 new newScales =>
    obtain ⟨hd, hsize, hm, -, -, hscales⟩ := (owns_quantized rfl).mp hs
    have hsize : new.size = blocksOf count * blockSize := hsize
    have hscales : newScales.size = blocksOf count ∨ lo + count = total := hscales
    cases owner <;> try cases hd
    have hblock := block_outside hm hend hp hout
    have hdata : p < lo ∨ lo + new.size ≤ p := by
      simp only [blockSize] at *
      omega
    simp only [Elements.put, Elements.cell?]
    rw [blit_outside hdata, blit_outside (by omega)]
  | q4 new newScales =>
    obtain ⟨hd, hsize, hm, -, -, hscales⟩ := (owns_quantized rfl).mp hs
    have hsize : new.size = blocksOf count * q4BlockBytes := hsize
    have hscales : newScales.size = blocksOf count ∨ lo + count = total := hscales
    cases owner <;> try cases hd
    have hblock := block_outside hm hend hp hout
    have hdata : Q4.byteOf p < lo / 2 ∨ lo / 2 + new.size ≤ Q4.byteOf p := by
      simp only [Q4.byteOf, Q4.slot, blockSize, q4BlockBytes] at *
      omega
    simp only [Elements.put, Elements.cell?]
    rw [blit_outside hdata, blit_outside (by omega)]

theorem blit_replicate {β : Type} {a : Array β} {start n i : Nat} {v : β} (h : start ≤ i)
    (hi : i < start + n) (ha : i < a.size) :
    (Buffer.blit a start (.replicate n v))[i]? = some v := by
  rw [Buffer.getElem?_blit, Array.size_replicate, if_pos ⟨h, hi, ha⟩,
    Array.getElem?_replicate, if_pos (by omega)]

/-- The block in which such a range ends early is one of its own. -/
theorem block_inside {lo count : Nat} (ha : lo % blockSize = 0)
    (hmod : (lo + count) % blockSize ≠ 0) :
    lo / blockSize ≤ (lo + count) / blockSize ∧
      (lo + count) / blockSize < lo / blockSize + blocksOf count := by
  simp only [blocksOf, blockSize] at *
  omega

variable [Scalar α]

/-- If the range ends inside a block and before the owner does, zeroing it zeroes
the element after it. -/
theorem put_fillZero {owner : Elements α} {total count : Nat} {s : Segment α}
    (howner : owner.size = owner.dtype.blocksFor total * owner.dtype.blockSize)
    (hs : s.Owns owner total count)
    (hmod : (s.start + count) % owner.dtype.blockSize ≠ 0) (hlt : s.start + count < total) :
    (owner.put ⟨s.start, s.elems.fillZero⟩).get (s.start + count) = .ok (Scalar.ofInt 0 * 0) := by
  have hdt := hs.dtype
  rcases s with ⟨lo, e⟩
  dsimp only at hmod hlt ⊢
  have hp : lo + count < owner.size := Nat.lt_of_lt_of_le hlt (howner ▸ DType.blocksFor_le _ _)
  rw [Elements.get_eq_cell]
  cases e with
  | f32 | f16 | bf16 =>
    cases owner <;> try cases hdt
    exact absurd (Nat.mod_one _) hmod
  | q8 new newScales =>
    cases owner <;> try cases hdt
    rename_i data scales
    obtain ⟨-, hsize, hm, -, hin, hscales⟩ := (owns_quantized rfl).mp hs
    have hsize : new.size = blocksOf count * blockSize := hsize
    have hscales : newScales.size = blocksOf count :=
      hscales.resolve_right (Nat.ne_of_lt hlt)
    have hin : lo / blockSize + newScales.size ≤ scales.size := hin
    obtain ⟨hlo, hhi⟩ := block_inside hm hmod
    have hlen : lo + count < lo + new.size := by
      simp only [blocksOf, blockSize] at *
      omega
    simp only [Elements.put, Elements.fillZero, Elements.cell?]
    rw [blit_replicate (Nat.le_add_right ..) hlen hp, blit_replicate hlo (by omega) (by omega)]
    rfl
  | q4 new newScales =>
    cases owner <;> try cases hdt
    rename_i data scales
    obtain ⟨-, hsize, hm, -, hin, hscales⟩ := (owns_quantized rfl).mp hs
    have hsize : new.size = blocksOf count * q4BlockBytes := hsize
    have hscales : newScales.size = blocksOf count :=
      hscales.resolve_right (Nat.ne_of_lt hlt)
    have hin : lo / blockSize + newScales.size ≤ scales.size := hin
    obtain ⟨hlo, hhi⟩ := block_inside hm hmod
    have hlen : lo / 2 ≤ Q4.byteOf (lo + count) ∧ Q4.byteOf (lo + count) < lo / 2 + new.size := by
      simp only [Q4.byteOf, Q4.slot, blocksOf, blockSize, q4BlockBytes] at *
      omega
    have howner : data.size * 2 = blocksOf total * blockSize := howner
    have hdata : Q4.byteOf (lo + count) < data.size := by
      simp only [Q4.byteOf, Q4.slot, blocksOf, blockSize, q4BlockBytes] at *
      omega
    simp only [Elements.put, Elements.fillZero, Elements.cell?]
    rw [blit_replicate hlen.1 hlen.2 hdata, blit_replicate hlo (by omega) (by omega)]
    -- both nibbles of the byte hold the code zero
    have hn : Q4.nibble (lo + count) Elements.zeroNibbles = 8 := by
      unfold Q4.nibble
      split <;> rfl
    simp only [Option.bind_some, Option.map_some, hn]
    rfl

end Segment

end BlockTensor

import BlockTensor.Proofs.Cell
import BlockTensor.Proofs.Permutation
import BlockTensor.Tensor.Basic

/-!
# Views that stay inside their elements

A `View.WellFormed` view holds every element that its strides lead to. Then:

* `View.get_eq` and `exists_get`: reading at an index vector in range gives the
  element at its position;
* `View.values_eq_mapM`: listing the values is reading at every index vector in
  row-major order, whether the view lists its elements at once or one by one
  (`values_eq_visit`).

`View.Reads v source w` says that `w` is a well-formed view of elements of `v`:
at an index vector it reads what `v` reads at its `source`. Every way of making
a view from a view is one (`sliceAt_ensures`, `narrow_ensures`,
`reshape_ensures`, `transpose_ensures`) and none of them aborts.
-/

namespace BlockTensor

open Outcome Shape

namespace Tensor

variable {α : Type} [Scalar α]

/-- The elements are whole blocks, and just enough for the shape. -/
def Filled (t : Tensor α) : Prop :=
  t.elements.size = t.elements.dtype.blocksFor t.shape.size * t.elements.dtype.blockSize

/-- Storage as an engine holds it: the blocks of the shape, one scale to each
quantized one. -/
structure WellFormed (t : Tensor α) : Prop where
  elems : t.elements.WellFormed
  filled : t.Filled

theorem Filled.size_le {t : Tensor α} (h : t.Filled) : t.shape.size ≤ t.elements.size :=
  h ▸ DType.blocksFor_le _ _

end Tensor

theorem checkHolds_of_le {shape : Shape} {held : Nat} (hb : shape.size < Word.bound)
    (h : shape.size ≤ held) : checkHolds shape held = .ok () := by
  rw [checkHolds, numel_eq hb, ok_bind, if_pos h]
  rfl

namespace View

variable {α : Type}

/-- The elements hold whatever the strides lead to. -/
structure WellFormed (v : View α) : Prop where
  elems : v.elems.WellFormed
  rank : v.strides.length = v.shape.rank
  fits : v.shape.size < Word.bound
  reach : ∀ {index}, InRange v.shape.dims index → position v.strides index < v.elems.size

/-- `w` reads at each index vector what `v` reads at its `source`. -/
structure Reads (v : View α) (source : List Nat → List Nat) (w : View α) : Prop where
  wellFormed : w.WellFormed
  inRange : ∀ {index}, InRange w.shape.dims index → InRange v.shape.dims (source index)
  cell : ∀ {index}, InRange w.shape.dims index →
    w.elems.cell? (position w.strides index) = v.elems.cell? (position v.strides (source index))

theorem WellFormed.reads_self {v : View α} (h : v.WellFormed) : v.Reads id v :=
  ⟨h, id, fun _ => rfl⟩

theorem Reads.trans {u v w : View α} {f g : List Nat → List Nat} (h : u.Reads f v)
    (h' : v.Reads g w) : u.Reads (f ∘ g) w :=
  ⟨h'.wellFormed, fun hi => h.inRange (h'.inRange hi),
    fun hi => (h'.cell hi).trans (h.cell (h'.inRange hi))⟩

theorem isContiguous_iff {v : View α} : v.isContiguous = true ↔ v.strides = v.shape.strides := by
  simp [isContiguous, Shape.isContiguous]

theorem position_of_contiguous {v : View α} (hc : v.isContiguous = true) {index : List Nat}
    (hi : InRange v.shape.dims index) : position v.strides index = linear v.shape.dims index := by
  rw [isContiguous_iff.mp hc]
  exact position_rowMajor _ _ hi.length_eq

/-- A contiguous view holds all its elements. -/
theorem WellFormed.size_le {v : View α} (h : v.WellFormed) (hc : v.isContiguous = true) :
    v.shape.size ≤ v.elems.size := by
  have hp := v.shape.size_pos
  have hlt : v.shape.size - 1 < volume v.shape.dims := Nat.sub_lt hp Nat.one_pos
  have hr := h.reach (inRange_unlinear hlt)
  rw [position_of_contiguous hc (inRange_unlinear hlt), linear_unlinear hlt] at hr
  omega

/-- The contiguous view of elements that hold the shape. -/
theorem wellFormed_of {shape : Shape} {e : Elements α} (he : e.WellFormed)
    (h : shape.size ≤ e.size) : WellFormed ⟨shape, shape.strides, e⟩ where
  elems := he
  rank := length_rowMajor _
  fits := Nat.lt_of_le_of_lt h he.fits
  reach hi := by
    rw [show position shape.strides _ = _ from position_rowMajor _ _ hi.length_eq]
    exact Nat.lt_of_lt_of_le (linear_lt hi) h

theorem of_of_le {shape : Shape} {e : Elements α} (hb : shape.size < Word.bound)
    (h : shape.size ≤ e.size) : of shape e = .ok ⟨shape, shape.strides, e⟩ := by
  rw [of, checkHolds_of_le hb h]
  rfl

theorem of_eq {shape : Shape} {e : Elements α} (he : e.WellFormed) (h : shape.size ≤ e.size) :
    of shape e = .ok ⟨shape, shape.strides, e⟩ :=
  of_of_le (Nat.lt_of_le_of_lt h he.fits) h

theorem of_eq_ok {shape : Shape} {e : Elements α} {v : View α} (h : of shape e = .ok v) :
    shape.size < Word.bound ∧ shape.size ≤ e.size ∧ v = ⟨shape, shape.strides, e⟩ := by
  obtain ⟨_, hholds, h⟩ := bind_eq_ok.mp h
  obtain ⟨n, hn, hholds⟩ := bind_eq_ok.mp hholds
  obtain ⟨hb, rfl⟩ := Word.check_eq_ok.mp hn
  split at hholds
  · exact ⟨hb, ‹_›, (Except.ok.inj h).symm⟩
  · exact absurd hholds (stop_ne_ok _ _)

theorem contiguous_ensures (v : View α) :
    Ensures v.contiguous fun e => v.isContiguous = true ∧ e = v.elems := by
  unfold contiguous
  split
  · exact ensures_ok ⟨‹_›, rfl⟩
  · exact ensures_fail _ _

/-! ## Reading -/

section

variable [Scalar α] {v : View α}

theorem get_eq (h : v.WellFormed) {index : List Nat} (hi : InRange v.shape.dims index) :
    v.get index = v.elems.get (position v.strides index) := by
  rw [get, offset_eq hi h.rank (Nat.lt_trans (h.reach hi) h.elems.fits)]
  rfl

theorem exists_get (h : v.WellFormed) {index : List Nat} (hi : InRange v.shape.dims index) :
    ∃ x, v.get index = .ok x := by
  rw [get_eq h hi]
  exact Elements.exists_get h.elems.scaled (h.reach hi)

theorem Reads.get_eq {w : View α} {source : List Nat → List Nat} (h : v.Reads source w)
    (hv : v.WellFormed) {index : List Nat} (hi : InRange w.shape.dims index) :
    w.get index = v.get (source index) := by
  rw [View.get_eq h.wellFormed hi, View.get_eq hv (h.inRange hi), Elements.get_congr (h.cell hi)]

/-- Visiting reads at every index vector. -/
theorem visit_eq_mapM_get (h : v.WellFormed) :
    (v.shape.visit fun index => v.elems.get (position v.strides index)) =
      (do return (← (indices v.shape.dims).mapM v.get).toArray) := by
  rw [visit_eq_mapM _ _ h.fits, mapM_congr fun index hi => (get_eq h (mem_indices.mp hi)).symm]

/-- The values are those at every index vector, in row-major order. -/
theorem values_eq_mapM (h : v.WellFormed) :
    v.values = (do return (← (indices v.shape.dims).mapM v.get).toArray) := by
  rw [values]
  split
  · rename_i hc
    rw [Elements.read_eq_generate _ (by rw [Nat.zero_add]; exact h.size_le hc) h.elems.fits,
      Buffer.generate_eq_mapM, ← List.range_eq_range', View.size, Shape.size,
      ← map_linear_indices, List.mapM_map]
    rw [mapM_congr fun index hi => ?_]
    have hi := mem_indices.mp hi
    rw [get_eq h hi, position_of_contiguous hc hi, Function.comp_apply]
  · exact visit_eq_mapM_get h

/-- A contiguous view lists at once what it would list index by index. -/
theorem values_eq_visit (h : v.WellFormed) :
    v.values = v.shape.visit fun index => v.elems.get (position v.strides index) := by
  rw [values_eq_mapM h, visit_eq_mapM_get h]

theorem exists_values (h : v.WellFormed) :
    ∃ xs, v.values = .ok xs ∧ (indices v.shape.dims).mapM v.get = .ok xs.toList := by
  have hg : ∃ f : List Nat → α, ∀ index ∈ indices v.shape.dims, v.get index = .ok (f index) := by
    refine ⟨fun index => (v.get index).toOption.getD 0, fun index hi => ?_⟩
    obtain ⟨x, hx⟩ := exists_get h (mem_indices.mp hi)
    simp only [hx]
    rfl
  obtain ⟨f, hf⟩ := hg
  refine ⟨((indices v.shape.dims).map f).toArray, ?_, mapM_of_ok hf⟩
  rw [values_eq_mapM h, mapM_of_ok hf]
  rfl

end

/-! ## Views of views -/

theorem volume_take_mul_drop (n : Nat) (dims : List Nat) :
    volume (dims.take n) * volume (dims.drop n) = volume dims := by
  rw [← volume_append, List.take_append_drop]

/-- Where the elements with some leading indices fixed start. -/
theorem startOf_ensures (axis acc : Nat) {dims index : List Nat} (h : index.length ≤ dims.length) :
    Ensures (startOf axis acc dims (rowMajor dims) index) fun start =>
      InRange (dims.take index.length) index ∧
        start = acc + linear (dims.take index.length) index * volume (dims.drop index.length) := by
  induction dims generalizing axis acc index with
  | nil =>
    obtain rfl := List.length_eq_zero_iff.mp (Nat.le_zero.mp h)
    exact ensures_ok ⟨trivial, by simp [linear]⟩
  | cons d dims ih =>
    cases index with
    | nil => exact ensures_ok ⟨trivial, by simp [linear]⟩
    | cons i index =>
      rw [rowMajor, startOf]
      split
      · exact ensures_fail _ _
      rename_i hi
      refine (ih (axis + 1) (acc + i * volume dims) (Nat.le_of_succ_le_succ h)).mono ?_
      rintro start ⟨hr, rfl⟩
      refine ⟨⟨Nat.not_le.mp hi, hr⟩, ?_⟩
      simp only [List.length_cons, List.take_succ_cons, List.drop_succ_cons, linear]
      rw [Nat.add_mul, Nat.mul_assoc, volume_take_mul_drop, Nat.add_assoc]

/-- A part of a contiguous view, whose index vectors have their places `start`
after one another. -/
theorem reads_part {v : View α} (h : v.WellFormed) (hc : v.isContiguous = true) {shape : Shape}
    {start : Nat} (source : List Nat → List Nat) (hle : start + shape.size ≤ v.shape.size)
    (hs : ∀ {index}, InRange shape.dims index → InRange v.shape.dims (source index) ∧
      linear v.shape.dims (source index) = start + linear shape.dims index) :
    Ensures (do let elems ← v.elems.slice start shape.size; of shape elems) fun w =>
      w.shape = shape ∧ v.Reads source w := by
  have hfit := Nat.le_trans hle (h.size_le hc)
  refine (Elements.slice_ensures h.elems hfit).bind ?_
  rintro e - ⟨he, -, hsize, hcell⟩
  rw [of_eq he hsize]
  refine ensures_ok ⟨rfl, wellFormed_of he hsize, fun hi => (hs hi).1, fun {index} hi => ?_⟩
  have hp : position shape.strides index = linear shape.dims index :=
    position_rowMajor _ _ hi.length_eq
  rw [hp, hcell _ (linear_lt hi), position_of_contiguous hc (hs hi).1, (hs hi).2]

theorem sliceAt_ensures {v : View α} (h : v.WellFormed) (fixed : List Nat) :
    Ensures (v.sliceAt fixed) fun w =>
      w.shape.dims = v.shape.dims.drop fixed.length ∧ v.Reads (fixed ++ ·) w := by
  refine v.contiguous_ensures.bind ?_
  rintro e - ⟨hc, rfl⟩
  have hfits : volume v.shape.dims < Word.bound := h.fits
  have hvol := volume_take_mul_drop fixed.length v.shape.dims
  rw [Shape.drop]
  split
  · exact ensures_fail _ _
  rename_i hlen
  have hlen : fixed.length < v.shape.dims.length := Nat.not_le.mp hlen
  have hpos : ∀ d ∈ v.shape.dims.drop fixed.length, 0 < d := fun d hd =>
    v.shape.pos d (List.mem_of_mem_drop hd)
  have htake : 0 < volume (v.shape.dims.take fixed.length) :=
    volume_pos fun d hd => v.shape.pos d (List.mem_of_mem_take hd)
  rw [assert_eq (by simpa using hlen) hpos
    (Nat.lt_of_le_of_lt (hvol ▸ Nat.le_mul_of_pos_left _ htake) hfits), ok_bind]
  rw [isContiguous_iff.mp hc]
  refine (startOf_ensures 0 0 (Nat.le_of_lt hlen)).bind ?_
  rintro start - ⟨hr, rfl⟩
  rw [Nat.zero_add]
  refine (reads_part h hc (fixed ++ ·) ?_ fun {index} hi => ?_).mono
    fun w hw => ⟨hw.1 ▸ rfl, hw.2⟩
  · -- the fixed indices name one of the runs that make up the view
    calc linear (v.shape.dims.take fixed.length) fixed * volume (v.shape.dims.drop fixed.length)
          + volume (v.shape.dims.drop fixed.length)
        = (linear (v.shape.dims.take fixed.length) fixed + 1)
            * volume (v.shape.dims.drop fixed.length) := (Nat.succ_mul ..).symm
      _ ≤ volume (v.shape.dims.take fixed.length) * volume (v.shape.dims.drop fixed.length) :=
          Nat.mul_le_mul_right _ (linear_lt hr)
      _ = v.shape.size := hvol
  · have ht := List.take_append_drop fixed.length v.shape.dims
    refine ⟨ht ▸ hr.append hi, ?_⟩
    conv_lhs => rw [← ht]
    rw [linear_append hr]

theorem narrow_ensures {v : View α} (h : v.WellFormed) {start count : Nat}
    (hb : start + count < Word.bound) :
    Ensures (v.narrow start count) fun w =>
      w.shape.dims = v.shape.dims.set 0 count ∧ v.Reads (·.modify 0 (start + ·)) w := by
  refine v.contiguous_ensures.bind ?_
  rintro e - ⟨hc, rfl⟩
  rw [Word.add_of_lt hb, ok_bind]
  dsimp only
  split
  · exact ensures_fail _ _
  rename_i hn
  obtain ⟨d, dims, hd⟩ := List.exists_cons_of_ne_nil v.shape.nonempty
  have hfirst : v.shape.first = d := by simp [Shape.first, hd]
  have hsum : start + count ≤ d := by omega
  have hmul : start * volume dims + count * volume dims ≤ v.shape.size := by
    rw [← Nat.add_mul, Shape.size, hd]
    exact Nat.mul_le_mul_right _ hsum
  have hfits := h.fits
  obtain ⟨shape, hshape, hdims⟩ := withDim_zero_eq hd (show 0 < count by omega)
    (by rw [volume_cons]; omega)
  have hstride : v.strides.headD 0 = volume dims := by
    rw [isContiguous_iff.mp hc, Shape.strides, hd]
    rfl
  rw [hshape, ok_bind, hstride]
  refine (reads_part h hc (·.modify 0 (start + ·)) ?_ fun {index} hi => ?_).mono
    fun w hw => ⟨by rw [hw.1, hdims, hd]; rfl, hw.2⟩
  · rw [Shape.size, hdims, volume_cons]
    exact hmul
  · rw [hdims] at hi ⊢
    cases index with
    | nil => exact hi.elim
    | cons i index =>
      rw [hd]
      refine ⟨⟨Nat.lt_of_lt_of_le (Nat.add_lt_add_left hi.1 start) hsum, hi.2⟩, ?_⟩
      simp only [List.modify_zero_cons, linear, Nat.add_mul, Nat.add_assoc]

theorem reshape_ensures {v : View α} (h : v.WellFormed) {shape : Shape}
    (hb : shape.size < Word.bound) :
    Ensures (v.reshape shape) fun w =>
      w.shape = shape ∧
        v.Reads (fun index => unlinear v.shape.dims (linear shape.dims index)) w := by
  rw [reshape, numel_eq hb, ok_bind]
  dsimp only
  split
  · exact ensures_fail _ _
  rename_i hsize
  have hsize : shape.size = v.shape.size := Decidable.not_not.mp hsize
  refine v.contiguous_ensures.bind ?_
  rintro e - ⟨hc, rfl⟩
  have hle : shape.size ≤ v.elems.size := hsize ▸ h.size_le hc
  have hlt {index : List Nat} (hi : InRange shape.dims index) :
      linear shape.dims index < volume v.shape.dims :=
    Nat.lt_of_lt_of_eq (linear_lt hi) hsize
  rw [of_eq h.elems hle]
  refine ensures_ok ⟨rfl, wellFormed_of h.elems hle, fun hi => inRange_unlinear (hlt hi),
    fun {index} hi => ?_⟩
  have hp : position shape.strides index = linear shape.dims index :=
    position_rowMajor _ _ hi.length_eq
  rw [hp, position_of_contiguous hc (inRange_unlinear (hlt hi)), linear_unlinear (hlt hi)]

theorem transpose_ensures {v : View α} (h : v.WellFormed) (perm : List Nat) :
    Ensures (v.transpose perm) fun w =>
      w.shape.dims = permuted perm v.shape.dims ∧ v.Reads (unpermute perm) w := by
  rw [transpose]
  dsimp only
  split
  · exact ensures_fail _ _
  refine (permute_ensures v.shape perm h.fits).bind ?_
  rintro shape - ⟨hp, hd⟩
  have hr {index : List Nat} (hi : InRange shape.dims index) :
      InRange v.shape.dims (unpermute perm index) := inRange_unpermute hp rfl (hd ▸ hi)
  have hpos {index : List Nat} (hi : InRange shape.dims index) :
      position (permuted perm v.strides) index = position v.strides (unpermute perm index) :=
    position_permuted hp h.rank (by rw [hi.length_eq, hd, length_permuted, hp.length])
  refine ensures_ok ⟨hd, ⟨h.elems, ?_, ?_, fun hi => ?_⟩, hr, fun hi => ?_⟩
  · simp only [Shape.rank, hd, length_permuted]
  · rw [Shape.size, hd, volume_perm (permuted_perm hp rfl)]
    exact h.fits
  · exact hpos hi ▸ h.reach (hr hi)
  · rw [hpos hi]

end View

end BlockTensor

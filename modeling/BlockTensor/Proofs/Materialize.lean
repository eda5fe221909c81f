import BlockTensor.Proofs.Lossless
import BlockTensor.Proofs.ViewRange

/-!
# Views made into tensors

A contiguous view is copied as it is stored; a strided one is decoded and encoded again.
Either way the tensor stores for each index vector what the view leads to, since the float
codecs are lossless (`View.toTensor_stored`).

`Elements.Stored e place u` and `Tensor.Copies t source u` say that a tensor `u` stores, in
row-major order, the patterns of elements in the `place` of each index vector, or those of a
tensor at its `source`. Copies compose along chains of views, so permuting the axes and
permuting them back restores a tensor (`Tensor.materialize_lossless`).
-/

namespace BlockTensor

open Outcome Shape

variable {α : Type} [Scalar α]

theorem Mapping.dtype_elements (m : Mapping) : (m.elements : Elements α).dtype = m.dtype := by
  unfold Mapping.elements
  cases m.dtype <;> rfl

theorem Tensor.dtype_elements (t : Tensor α) : t.elements.dtype = t.dtype := by
  rcases t with ⟨shape, e | e | m⟩
  · rfl
  · rfl
  · exact m.dtype_elements

/-- What is stored for an index vector. -/
def Tensor.cell? (t : Tensor α) (index : List Nat) : Option (Cell α) :=
  t.elements.cell? (linear t.shape.dims index)

/-- `u` stores at each index vector what `t` stores at its `source`. -/
structure Tensor.Copies (t : Tensor α) (source : List Nat → List Nat) (u : Tensor α) : Prop where
  wellFormed : u.WellFormed
  dtype : u.dtype = t.dtype
  inRange {index : List Nat} : InRange u.shape.dims index → InRange t.shape.dims (source index)
  same {index : List Nat} : InRange u.shape.dims index →
    ∃ c c', t.cell? (source index) = some c ∧ u.cell? index = some c' ∧ c'.Same c

/-- `u` stores at each index vector what `e` stores in its `place`. -/
structure Elements.Stored (e : Elements α) (place : List Nat → Nat) (u : Tensor α) : Prop where
  wellFormed : u.WellFormed
  dtype : u.dtype = e.dtype
  same {index : List Nat} : InRange u.shape.dims index →
    ∃ c c', e.cell? (place index) = some c ∧ u.cell? index = some c' ∧ c'.Same c

/-- Float values that are encoded in a shape are stored as the cells that they were decoded
from. -/
theorem Elements.stored_of_encode (hα : Scalar.Lossless α) {e : Elements α}
    (hq : e.dtype.isQuantized = false) {shape : Shape} (hb : shape.size < Word.bound)
    {values : Array α} (hsize : values.size = shape.size) {place : List Nat → Nat}
    (hvalues : ∀ {index}, InRange shape.dims index →
      ∃ c, e.cell? (place index) = some c ∧ values[linear shape.dims index]? = some c.decode) :
    ∃ e', encode e.dtype values = .ok e' ∧ e.Stored place (.owning shape e') := by
  obtain ⟨e', he', hcell⟩ := encode_float hq (hsize ▸ hb)
  have hrep := encode_represents he'
  have hheld : e'.size = shape.size := by rw [hrep.size, DType.blocksFor_float hq, hsize]
  refine ⟨e', he', ⟨⟨hrep.scaled, hheld ▸ hb⟩, ?_⟩, hrep.dtype, fun {index} hi => ?_⟩
  · show e'.size = e'.dtype.blocksFor shape.size * e'.dtype.blockSize
    rw [hrep.size, hrep.dtype, hsize]
  · obtain ⟨c, hc, hat⟩ := hvalues hi
    obtain ⟨c', hc', hsame⟩ := Cell.encode_decode hα hq hc
    refine ⟨c, c', hc, ?_, hsame⟩
    show e'.cell? (linear shape.dims index) = some c'
    rw [hcell _ (hsize ▸ linear_lt hi), hat, Option.bind_some]
    exact hc'

namespace View

variable {v : View α}

/-- What is read at an index vector is decoded from a cell. -/
theorem get_decodes (h : v.WellFormed) {index : List Nat} (hi : InRange v.shape.dims index) :
    ∃ c, v.elems.cell? (position v.strides index) = some c ∧ v.get index = .ok c.decode := by
  obtain ⟨c, hc⟩ := Elements.exists_cell h.elems.scaled (h.reach hi)
  exact ⟨c, hc, by rw [get_eq h hi, Elements.get_eq_cell, hc]⟩

/-- What is listed in the place of an index vector. -/
theorem values_at (h : v.WellFormed) {values : Array α} (hvalues : v.values = .ok values)
    {index : List Nat} (hi : InRange v.shape.dims index) :
    ∃ c, v.elems.cell? (position v.strides index) = some c ∧
      values[linear v.shape.dims index]? = some c.decode := by
  rw [values_eq_visit h] at hvalues
  obtain ⟨x, hx, hat⟩ := visit_at h.fits hvalues hi
  obtain ⟨c, hc, hget⟩ := get_decodes h hi
  rw [get_eq h hi, hx] at hget
  exact ⟨c, hc, hat.trans (congrArg some (Except.ok.inj hget))⟩

/-- Elements of a contiguous view are copied as they are stored, in whole blocks. -/
theorem stored_of_contiguous (h : v.WellFormed) (hc : v.isContiguous = true) {u : Tensor α}
    (hu : v.toTensor = .ok u) : u.shape = v.shape ∧ v.elems.Stored (position v.strides) u := by
  obtain ⟨hshape, hrange⟩ := toTensor_elements hc h.elems.scaled hu
  have hwithin := hrange.within
  have hfits := h.elems.fits
  have hdtype : u.elements.dtype = v.elems.dtype := hrange.dtype
  refine ⟨hshape, ⟨⟨hrange.scaled, by omega⟩, ?_⟩, u.dtype_elements.symm.trans hdtype,
    fun {index} hi => ?_⟩
  · rw [Tensor.Filled, hrange.size, hdtype, hshape]
    rfl
  · rw [hshape] at hi
    obtain ⟨c, hcell⟩ := Elements.exists_cell h.elems.scaled (h.reach hi)
    refine ⟨c, c, hcell, ?_, .refl c⟩
    rw [position_of_contiguous hc hi] at hcell
    rw [Tensor.cell?, hshape, hrange.cell _ (Nat.lt_of_lt_of_le (linear_lt hi) hrange.le_size),
      Nat.zero_add, hcell]

/-- The elements of a contiguous float view can be copied. -/
theorem exists_toTensor (h : v.WellFormed) (hc : v.isContiguous = true)
    (hq : v.dtype.isQuantized = false) : ∃ u, v.toTensor = .ok u := by
  rw [toTensor, if_pos hc]
  have hle : v.size ≤ v.elems.size := h.size_le hc
  cases hv : v.elems with
  | f32 data | f16 data | bf16 data =>
    rw [hv] at hle
    exact ⟨_, by rw [Elements.take, Buffer.cut_of_le (Nat.zero_le _) hle]; rfl⟩
  | q8 data scales | q4 data scales =>
    rw [dtype, hv] at hq
    cases hq

/-- A float view becomes a tensor that stores the same patterns. -/
theorem toTensor_stored (hα : Scalar.Lossless α) (h : v.WellFormed)
    (hq : v.dtype.isQuantized = false) :
    ∃ u, v.toTensor = .ok u ∧ u.shape = v.shape ∧ v.elems.Stored (position v.strides) u := by
  by_cases hc : v.isContiguous = true
  · obtain ⟨u, hu⟩ := exists_toTensor h hc hq
    exact ⟨u, hu, stored_of_contiguous h hc hu⟩
  · obtain ⟨values, hvalues, -⟩ := exists_values h
    obtain ⟨e, he, hstored⟩ := Elements.stored_of_encode hα hq h.fits (values_size h.fits hvalues)
      (values_at h hvalues)
    refine ⟨_, ?_, rfl, hstored⟩
    rw [toTensor, if_neg hc, hvalues, ok_bind, dtype, he]
    rfl

omit [Scalar α] in
/-- A float view is transposed by the permutations of its axes and by nothing else. -/
theorem exists_transpose_iff (h : v.WellFormed) (hq : v.dtype.isQuantized = false)
    {perm : List Nat} : (∃ w, v.transpose perm = .ok w) ↔ IsPermutation perm v.shape.rank := by
  have hfloat : ¬v.dtype.isQuantized = true := by rw [hq]; exact Bool.false_ne_true
  rw [transpose, if_neg hfloat]
  constructor
  · rintro ⟨w, hw⟩
    obtain ⟨shape, hshape, -⟩ := bind_eq_ok.mp hw
    exact ((permute_ensures v.shape perm h.fits).of_ok hshape).1
  · intro hperm
    obtain ⟨shape, hshape⟩ := permute_of_isPermutation hperm h.fits
    exact ⟨_, by rw [hshape]; rfl⟩

end View

namespace Tensor

variable {t u : Tensor α}

theorem Copies.trans {w : Tensor α} {f g : List Nat → List Nat} (h : t.Copies f u)
    (h' : u.Copies g w) : t.Copies (f ∘ g) w where
  wellFormed := h'.wellFormed
  dtype := h'.dtype.trans h.dtype
  inRange hi := h.inRange (h'.inRange hi)
  same {index} hi := by
    obtain ⟨c, c', hc, hc', hsame⟩ := h'.same hi
    obtain ⟨d, d', hd, hd', hsame'⟩ := h.same (h'.inRange hi)
    obtain rfl := Option.some.inj (hd'.symm.trans hc)
    exact ⟨d, c', hd, hc', hsame.trans hsame'⟩

/-- All elements of a tensor, to be read. -/
def whole (t : Tensor α) : View α := ⟨t.shape, t.shape.strides, t.elements⟩

theorem whole_dtype (t : Tensor α) : t.whole.dtype = t.dtype := t.dtype_elements

theorem whole_wellFormed (h : t.WellFormed) : t.whole.WellFormed :=
  View.wellFormed_of h.elems h.filled.size_le

/-- What is read at an index vector of a tensor is decoded from its cell. -/
theorem get_decodes (h : t.WellFormed) {index : List Nat} (hi : InRange t.shape.dims index) :
    ∃ c, t.cell? index = some c ∧ t.get index = .ok c.decode := by
  obtain ⟨c, hc, hget⟩ := View.get_decodes (whole_wellFormed h) hi
  rw [View.position_of_contiguous (View.isContiguous_iff.mpr rfl) hi] at hc
  exact ⟨c, hc, hget⟩

/-- The value at an index vector. -/
def value (t : Tensor α) (index : List Nat) : α := t.elements.value (linear t.shape.dims index)

theorem value_of_cell {index : List Nat} {c : Cell α} (h : t.cell? index = some c) :
    t.value index = c.decode := by
  rw [value, Elements.value, show t.elements.cell? _ = some c from h]
  rfl

theorem get_eq_value (h : t.WellFormed) {index : List Nat} (hi : InRange t.shape.dims index) :
    t.get index = .ok (t.value index) := by
  obtain ⟨c, hc, hget⟩ := get_decodes h hi
  rw [hget, value_of_cell hc]

/-- What a copy holds is decoded from the same patterns. -/
theorem Copies.values {source : List Nat → List Nat} (h : t.Copies source u) {index : List Nat}
    (hi : InRange u.shape.dims index) :
    ∃ c c' : Cell α, t.value (source index) = c.decode ∧ u.value index = c'.decode ∧
      c'.Same c :=
  let ⟨c, c', hc, hc', hsame⟩ := h.same hi
  ⟨c, c', value_of_cell hc, value_of_cell hc', hsame⟩

/-- A copy of a view of a tensor is a copy of the tensor. -/
theorem copies_of_view {v : View α} {source : List Nat → List Nat}
    (hv : t.whole.Reads source v) (hd : v.dtype = t.dtype) (hshape : u.shape = v.shape)
    (hu : v.elems.Stored (View.position v.strides) u) : t.Copies source u where
  wellFormed := hu.wellFormed
  dtype := hu.dtype.trans hd
  inRange hi := hv.inRange (hshape ▸ hi)
  same {index} hi := by
    obtain ⟨c, c', hc, hc', hsame⟩ := hu.same hi
    rw [hshape] at hi
    refine ⟨c, c', ?_, hc', hsame⟩
    rw [hv.cell hi, View.position_of_contiguous (View.isContiguous_iff.mpr rfl) (hv.inRange hi)]
      at hc
    exact hc

/-- A float tensor with its axes permuted, stored in the new order. -/
theorem transpose_copies (hα : Scalar.Lossless α) (ht : t.WellFormed)
    (hq : t.dtype.isQuantized = false) {perm : List Nat}
    (hperm : IsPermutation perm t.shape.rank) :
    ∃ x u, t.transpose perm = .ok x ∧ x.toTensor = .ok u ∧
      u.shape.dims = permuted perm t.shape.dims ∧ t.Copies (unpermute perm) u := by
  have hw := whole_wellFormed ht
  have hdtype := t.whole_dtype
  obtain ⟨v, hv⟩ := (View.exists_transpose_iff hw (hdtype ▸ hq)).mpr hperm
  obtain ⟨hdims, hreads⟩ := (View.transpose_ensures hw perm).of_ok hv
  obtain ⟨hd, -⟩ := View.follow_elems (s := .transpose perm) hw.elems.scaled hv
  have hd := hd.trans hdtype
  obtain ⟨u, hu, hshape, hstored⟩ := View.toTensor_stored hα hreads.wellFormed (hd ▸ hq)
  refine ⟨.view v, u, ?_, hu, hshape ▸ hdims, copies_of_view hreads hd hshape hstored⟩
  rw [transpose, if_neg (by rw [hq]; exact Bool.false_ne_true), View.view_eq ht]
  show (do let w ← t.whole.transpose perm; return Transposed.view w) = _
  rw [hv]
  rfl

theorem Copies.congr {f g : List Nat → List Nat} (h : t.Copies f u)
    (hfg : ∀ {index}, InRange u.shape.dims index → f index = g index) : t.Copies g u where
  wellFormed := h.wellFormed
  dtype := h.dtype
  inRange hi := hfg hi ▸ h.inRange hi
  same hi := hfg hi ▸ h.same hi

/-- Permuting the axes and permuting them back restores a float tensor. -/
theorem transpose_inverse_copies (hα : Scalar.Lossless α) (ht : t.WellFormed)
    (hq : t.dtype.isQuantized = false) {perm : List Nat}
    (hperm : IsPermutation perm t.shape.rank) :
    ∃ x u x' u', t.transpose perm = .ok x ∧ x.toTensor = .ok u ∧
      u.transpose (inverse perm) = .ok x' ∧ x'.toTensor = .ok u' ∧
      u'.shape.dims = t.shape.dims ∧ t.Copies id u' := by
  obtain ⟨x, u, hx, hu, hdims, hcopies⟩ := transpose_copies hα ht hq hperm
  have hrank : u.shape.rank = t.shape.rank := by
    rw [rank, hdims, length_permuted, hperm.length]
  obtain ⟨x', u', hx', hu', hdims', hcopies'⟩ := transpose_copies hα hcopies.wellFormed
    (hcopies.dtype ▸ hq) (hrank ▸ hperm.inverse)
  have hback : u'.shape.dims = t.shape.dims := by
    rw [hdims', hdims, permuted_inverse, unpermute_permuted hperm rfl]
  refine ⟨x, u, x', u', hx, hu, hx', hu', hback,
    (hcopies.trans hcopies').congr fun {index} hi => ?_⟩
  have hlen : index.length = t.shape.rank := by rw [hi.length_eq, hback, rank]
  rw [Function.comp_apply, unpermute_inverse hperm hlen, unpermute_permuted hperm hlen, id]

/-- Whatever views are made of views of a float tensor, making one into a tensor keeps its
shape, its encoding and each pattern that it leads to, up to the payload of what is no number.
A view is transposed by the permutations of its axes, and permuting the axes and permuting
them back restores the tensor. -/
theorem materialize_lossless (m : Machine) (narrow : Binary32 → UInt16)
    (hn : Binary16.Rounds narrow) :
    letI := Binary32.scalarWith m ⟨Binary32.ofHalf, narrow⟩
    ∀ t : Tensor Binary32, t.WellFormed → t.dtype.isQuantized = false →
      (∀ steps : List View.Step, (∀ s ∈ steps, s.Fits) →
        ∃ v₀, t.view = .ok v₀ ∧ (v₀.followAll steps).Reports ∧
          ∀ v, v₀.followAll steps = .ok v →
            v.shape.dims = View.chainDims t.shape.dims steps ∧
            (∃ u w, v.toTensor = .ok u ∧ u.shape = v.shape ∧ u.view = .ok w ∧ w.isContiguous ∧
              t.Copies (View.locate t.shape.dims steps) u) ∧
            ∀ perm, (v.transpose perm).Reports ∧
              ((∃ w, v.transpose perm = .ok w) ↔ IsPermutation perm v.shape.rank)) ∧
      ∀ perm, IsPermutation perm t.shape.rank →
        permuted perm (inverse perm) = List.range t.shape.rank ∧
        ∃ x u x' u', t.transpose perm = .ok x ∧ x.toTensor = .ok u ∧
          u.transpose (inverse perm) = .ok x' ∧ x'.toTensor = .ok u' ∧
          u'.shape.dims = t.shape.dims ∧ t.Copies id u' := by
  let _ := Binary32.scalarWith m ⟨Binary32.ofHalf, narrow⟩
  have hα := hn.lossless m
  intro t ht hq
  refine ⟨fun steps hs => ?_, fun perm hperm => ⟨permuted_inverse_self hperm,
    transpose_inverse_copies hα ht hq hperm⟩⟩
  have hw := whole_wellFormed ht
  have hall := View.followAll_ensures hw hs
  refine ⟨t.whole, View.view_eq ht, hall.reports, fun v hv => ?_⟩
  obtain ⟨hdims, hreads⟩ := hall.of_ok hv
  have hd : v.dtype = t.dtype := (View.followAll_elems hw.elems.scaled hv).1.trans t.dtype_elements
  have hfloat : v.dtype.isQuantized = false := hd ▸ hq
  obtain ⟨u, hu, hshape, hstored⟩ := View.toTensor_stored hα hreads.wellFormed hfloat
  refine ⟨hdims, ⟨u, u.whole, hu, hshape, View.view_eq hstored.wellFormed,
    View.isContiguous_iff.mpr rfl, copies_of_view hreads hd hshape hstored⟩, fun perm => ⟨?_, ?_⟩⟩
  · exact (View.transpose_ensures hreads.wellFormed perm).reports
  · exact View.exists_transpose_iff hreads.wellFormed hfloat

/-- Two by two by three halves: zeros of both signs, subnormal and normal numbers, infinities
and, last, what is no number. -/
def specialHalves : Tensor Binary32 :=
  .owning ⟨[2, 2, 3], by decide, by decide⟩
    (.f16 #[0x0000, 0x8000, 0x3c00, 0x0001, 0x83ff, 0x7bff, 0x7c00, 0xfc00, 0x0400, 0x3555,
      0xc000, 0x7c01])

theorem specialHalves_wellFormed : specialHalves.WellFormed := ⟨⟨trivial, by decide⟩, rfl⟩

/-- The second of the two matrices, its axes exchanged. -/
def exchangeSteps : List View.Step := [.slice 1, .transpose [1, 0]]

theorem exchangeSteps_fit : ∀ s ∈ exchangeSteps, s.Fits := by
  simp only [exchangeSteps, List.forall_mem_cons, List.not_mem_nil, false_implies, implies_true,
    and_true, View.Step.Fits]

theorem rotate_isPermutation : IsPermutation [2, 0, 1] specialHalves.shape.rank :=
  ⟨rfl, by decide, by decide⟩

theorem materialize_lossless_special :
    Binary16.Rounds (fun x => Binary16.narrow x.bits) ∧ specialHalves.WellFormed ∧
      specialHalves.dtype.isQuantized = false ∧ (∀ s ∈ exchangeSteps, s.Fits) ∧
      IsPermutation [2, 0, 1] specialHalves.shape.rank ∧
      (∃ v₀ v u c, specialHalves.view = .ok v₀ ∧ v₀.followAll exchangeSteps = .ok v ∧
        v.toTensor = .ok u ∧ u.shape.dims = [3, 2] ∧
        u.cell? [2, 1] = some c ∧ c.Same (.f16 0x7c01)) ∧
      ∃ x u x' u' c, specialHalves.transpose [2, 0, 1] = .ok x ∧ x.toTensor = .ok u ∧
        u.transpose [1, 2, 0] = .ok x' ∧ x'.toTensor = .ok u' ∧ u'.shape.dims = [2, 2, 3] ∧
        u'.cell? [0, 1, 1] = some c ∧ c.Same (.f16 0x83ff) := by
  obtain ⟨hviews, hback⟩ :=
    materialize_lossless (.scalar "x86_64" "linux") _ Binary16.rounds_narrow specialHalves
      specialHalves_wellFormed rfl
  refine ⟨Binary16.rounds_narrow, specialHalves_wellFormed, rfl, exchangeSteps_fit,
    rotate_isPermutation, ?_, ?_⟩
  · obtain ⟨v₀, hv₀, -, hall⟩ := hviews exchangeSteps exchangeSteps_fit
    obtain rfl : specialHalves.whole = v₀ := Except.ok.inj hv₀
    obtain ⟨-, ⟨u, -, hu, hshape, -, -, hcopies⟩, -⟩ := hall _ rfl
    have hin : InRange u.shape.dims [2, 1] := by
      rw [hshape]
      exact ⟨by decide, by decide, trivial⟩
    obtain ⟨d, c, hd, hc, hsame⟩ := hcopies.same hin
    obtain rfl : .f16 0x7c01 = d := Option.some.inj hd
    exact ⟨_, _, u, c, hv₀, rfl, hu, by rw [hshape]; rfl, hc, hsame⟩
  · obtain ⟨-, x, u, x', u', hx, hu, hx', hu', hdims, hcopies⟩ :=
      hback [2, 0, 1] rotate_isPermutation
    have hin : InRange u'.shape.dims [0, 1, 1] := by
      rw [hdims]
      exact ⟨by decide, by decide, by decide, trivial⟩
    obtain ⟨d, c, hd, hc, hsame⟩ := hcopies.same hin
    obtain rfl : .f16 0x83ff = d := Option.some.inj hd
    exact ⟨x, u, x', u', c, hx, hu, hx', hu', hdims, hc, hsame⟩

end Tensor

end BlockTensor

import BlockTensor.Proofs.Materialize

/-!
# Parts along a dimension

A dimension that is a multiple of the number of parts (`Tensor.Divides`) is cut into equal
chunks. Part `k` stores at each index vector what the tensor stores `k` chunks further along
the dimension: parts along the leading dimension are copied as they are stored, in any
encoding, parts along an inner one are decoded and encoded again (`split_copies`). The chunks
make up the dimension, so `Tensor.split_partitions` says that nothing is lost and nothing is
repeated.
-/

namespace BlockTensor

open Outcome Shape

/-! ## A shorter dimension -/

namespace Shape

/-- An index vector of a part, moved along the dimension, is one of the whole. -/
theorem inRange_shift {dims index : List Nat} {dim n m : Nat}
    (hdim : dim < dims.length) (hle : m + n ≤ dims.getD dim 0)
    (h : InRange (dims.set dim n) index) : InRange dims (index.modify dim (· + m)) := by
  induction dims generalizing dim index with
  | nil => exact absurd hdim (Nat.not_lt_zero _)
  | cons d dims ih =>
    cases index with
    | nil => cases dim <;> exact h.elim
    | cons i index =>
      cases dim with
      | zero =>
        have hi : i < n := h.1
        have hle : m + n ≤ d := hle
        exact ⟨show i + m < d by omega, h.2⟩
      | succ dim => exact ⟨h.1, ih (Nat.lt_of_succ_lt_succ hdim) hle h.2⟩

theorem volume_set_le {dims : List Nat} {dim n : Nat} (h : n ≤ dims.getD dim 0) :
    volume (dims.set dim n) ≤ volume dims := by
  induction dims generalizing dim with
  | nil => exact Nat.le_refl _
  | cons d dims ih =>
    cases dim with
    | zero => exact Nat.mul_le_mul_right _ h
    | succ dim => exact Nat.mul_le_mul_left _ (ih h)

theorem getD_le_volume {dims : List Nat} (h : ∀ d ∈ dims, 0 < d) (dim : Nat) :
    dims.getD dim 0 ≤ volume dims := by
  induction dims generalizing dim with
  | nil => exact Nat.zero_le _
  | cons d dims ih =>
    obtain ⟨hd, hdims⟩ := List.forall_mem_cons.mp h
    cases dim with
    | zero => exact Nat.le_mul_of_pos_right _ (volume_pos hdims)
    | succ dim => exact Nat.le_trans (ih hdims dim) (Nat.le_mul_of_pos_left _ hd)

/-- A shape with a shorter dimension. -/
theorem withDim_eq {s : Shape} {dim n : Nat} (hdim : dim < s.rank) (hn : 0 < n)
    (hle : n ≤ s.dims.getD dim 0) (hb : s.size < Word.bound) :
    ∃ s', s.withDim dim n = .ok s' ∧ s'.dims = s.dims.set dim n := by
  have hne : ¬s.dims.set dim n = [] := by
    rw [← List.length_eq_zero_iff, List.length_set, List.length_eq_zero_iff]
    exact s.nonempty
  have hpos : ∀ d ∈ s.dims.set dim n, 0 < d := fun d hd => by
    rcases List.mem_or_eq_of_mem_set hd with hd | rfl
    · exact s.pos d hd
    · exact hn
  refine ⟨⟨_, hne, hpos⟩, ?_, rfl⟩
  rw [withDim, if_neg (Nat.not_le.mpr hdim), ofDims, dif_neg hne, dif_pos hpos,
    ofPositive_eq hne hpos (Nat.lt_of_le_of_lt (volume_set_le hle) hb)]

end Shape

variable {α : Type}

/-- Float elements are cut anywhere. -/
theorem Elements.exists_slice {e : Elements α} (he : e.WellFormed)
    (hq : e.dtype.isQuantized = false) {start len : Nat} (h : start + len ≤ e.size) :
    ∃ e', e.slice start len = .ok e' := by
  have hone : e.dtype.blockSize = 1 := by simp [DType.blockSize, hq]
  exact ⟨_, by rw [slice_eq he h, if_pos (hone ▸ Nat.mod_one start)]⟩

/-- Rows of a contiguous float view can be kept wherever they are. -/
theorem View.exists_narrow {v : View α} (h : v.WellFormed) (hc : v.isContiguous = true)
    (hq : v.dtype.isQuantized = false) {start count : Nat} (hcount : 0 < count)
    (hle : start + count ≤ v.shape.dims.getD 0 0) : ∃ w, v.narrow start count = .ok w := by
  have hstop : start + count < Word.bound :=
    Nat.lt_of_le_of_lt (Nat.le_trans hle (getD_le_volume v.shape.pos 0)) h.fits
  obtain ⟨d, dims, hd⟩ := List.exists_cons_of_ne_nil v.shape.nonempty
  have hle : start + count ≤ d := by rwa [hd] at hle
  have hfirst : v.shape.first = d := by simp [Shape.first, hd]
  have hstride : v.strides.headD 0 = volume dims := by
    rw [isContiguous_iff.mp hc, Shape.strides, hd]
    rfl
  obtain ⟨shape, hshape, hdims⟩ := withDim_zero_eq hd hcount (show _ < Word.bound by
    refine Nat.lt_of_le_of_lt (Nat.mul_le_mul_right _ (Nat.le_trans (Nat.le_add_left ..) hle)) ?_
    have hfits := h.fits
    rwa [Shape.size, hd] at hfits)
  have hroom : start * volume dims + shape.size ≤ v.elems.size := by
    refine Nat.le_trans ?_ (h.size_le hc)
    rw [Shape.size, Shape.size, hdims, hd, volume_cons, volume_cons, ← Nat.add_mul]
    exact Nat.mul_le_mul_right _ hle
  obtain ⟨e, he⟩ := Elements.exists_slice h.elems hq hroom
  obtain ⟨hwell, -, hsize, -⟩ := (Elements.slice_ensures h.elems hroom).of_ok he
  rw [narrow, contiguous, if_pos hc, ok_bind, Word.add_of_lt hstop, ok_bind]
  dsimp only
  rw [if_neg (by omega), hshape, ok_bind, hstride, he, ok_bind]
  exact ⟨_, of_eq hwell hsize⟩

namespace Tensor

/-- There is such a dimension, and it is a multiple of the number of parts. -/
structure Divides (t : Tensor α) (count dim : Nat) : Prop where
  axis : dim < t.shape.rank
  pos : 0 < count
  whole : t.shape.dims.getD dim 0 % count = 0

/-- The length of a part along the dimension. -/
def chunk (t : Tensor α) (count dim : Nat) : Nat := t.shape.dims.getD dim 0 / count

section

variable {t : Tensor α} {count dim : Nat}

theorem Divides.chunkLength_eq (h : t.Divides count dim) :
    t.chunkLength count dim = .ok (t.chunk count dim) := by
  have hdiv : ¬(count = 0 ∨ t.shape.dims.getD dim 0 % count ≠ 0) := by
    have := h.pos
    have := h.whole
    omega
  rw [chunkLength, if_neg (Nat.not_le.mpr h.axis), dim_eq h.axis]
  exact if_neg hdiv

/-- Any other cut is refused. -/
theorem chunkLength_error (h : ¬t.Divides count dim) :
    ∃ e, t.chunkLength count dim = .error (.error e) := by
  by_cases hdim : dim < t.shape.rank
  · have hdiv : count = 0 ∨ t.shape.dims.getD dim 0 % count ≠ 0 := by
      by_contra hno
      exact h ⟨hdim, by omega, by omega⟩
    rw [chunkLength, if_neg (Nat.not_le.mpr hdim), dim_eq hdim]
    exact ⟨_, if_pos hdiv⟩
  · rw [chunkLength, if_pos (Nat.not_lt.mp hdim)]
    exact ⟨_, rfl⟩

theorem divides_of_chunkLength {n : Nat} (h : t.chunkLength count dim = .ok n) :
    t.Divides count dim ∧ n = t.chunk count dim := by
  by_cases hdiv : t.Divides count dim
  · exact ⟨hdiv, (Except.ok.inj (hdiv.chunkLength_eq.symm.trans h)).symm⟩
  · obtain ⟨e, he⟩ := chunkLength_error hdiv
    rw [he] at h
    cases h

/-- The parts make up the dimension. -/
theorem Divides.count_mul_chunk (h : t.Divides count dim) :
    count * t.chunk count dim = t.shape.dims.getD dim 0 :=
  Nat.mul_div_cancel' (Nat.dvd_of_mod_eq_zero h.whole)

theorem Divides.chunk_pos (h : t.Divides count dim) : 0 < t.chunk count dim := by
  have hdim : dim < t.shape.dims.length := h.axis
  have hpos : 0 < t.shape.dims.getD dim 0 := by
    rw [List.getD_eq_getElem?_getD, List.getElem?_eq_getElem hdim, Option.getD_some]
    exact t.shape.pos _ (List.getElem_mem hdim)
  exact Nat.pos_of_mul_pos_left (h.count_mul_chunk ▸ hpos)

/-- A part ends within the dimension. -/
theorem Divides.chunk_le (h : t.Divides count dim) {k : Nat} (hk : k < count) :
    k * t.chunk count dim + t.chunk count dim ≤ t.shape.dims.getD dim 0 := by
  rw [← h.count_mul_chunk, ← Nat.succ_mul]
  exact Nat.mul_le_mul_right _ hk

end

variable [Scalar α] {t : Tensor α} {count dim : Nat}

/-! ## Along the leading dimension -/

theorem whole_rangeOf (ht : t.WellFormed) : t.whole.RangeOf t.elements 0 :=
  ⟨View.isContiguous_iff.mpr rfl, Elements.isRange_self ht.elems.scaled ht.filled⟩

theorem Divides.stop_lt (ht : t.WellFormed) (h : t.Divides count dim) {k : Nat} (hk : k < count) :
    k * t.chunk count dim + t.chunk count dim < Word.bound :=
  calc k * t.chunk count dim + t.chunk count dim
      ≤ t.shape.dims.getD dim 0 := h.chunk_le hk
    _ ≤ t.shape.size := getD_le_volume t.shape.pos dim
    _ < Word.bound := (whole_wellFormed ht).fits

theorem Divides.splitViews_eq (ht : t.WellFormed) (h : t.Divides count 0) :
    t.splitViews count =
      (List.range count).mapM fun k =>
        t.whole.narrow (k * t.chunk count 0) (t.chunk count 0) := by
  rw [splitViews, h.chunkLength_eq, ok_bind, View.view_eq ht]
  rfl

/-- A part along the leading dimension, copied as it is stored. -/
theorem Divides.narrow_copies (ht : t.WellFormed) (h : t.Divides count 0) {k : Nat}
    (hk : k < count) {v : View α} {u : Tensor α}
    (hv : t.whole.narrow (k * t.chunk count 0) (t.chunk count 0) = .ok v)
    (hu : v.toTensor = .ok u) :
    u.shape.dims = t.shape.dims.set 0 (t.chunk count 0) ∧
      t.Copies (·.modify 0 (· + k * t.chunk count 0)) u := by
  have hw := whole_wellFormed ht
  have hrange := whole_rangeOf ht
  obtain ⟨hdims, hreads⟩ := (View.narrow_ensures hw (h.stop_lt ht hk)).of_ok hv
  obtain ⟨hd, -⟩ := View.follow_elems (s := .narrow (k * t.chunk count 0) (t.chunk count 0))
    hw.elems.scaled hv
  obtain ⟨hshape, hstored⟩ :=
    View.stored_of_contiguous hreads.wellFormed (hrange.narrow hv).2.contiguous hu
  refine ⟨hshape ▸ hdims, ?_⟩
  simp only [Nat.add_comm _ (k * t.chunk count 0)]
  exact copies_of_view hreads (hd.trans t.whole_dtype) hshape hstored

/-- A part of a float tensor along the leading dimension is there to be copied. -/
theorem Divides.exists_narrow (ht : t.WellFormed) (hq : t.dtype.isQuantized = false)
    (h : t.Divides count 0) {k : Nat} (hk : k < count) :
    ∃ v u, t.whole.narrow (k * t.chunk count 0) (t.chunk count 0) = .ok v ∧
      v.toTensor = .ok u := by
  have hw := whole_wellFormed ht
  have hrange := whole_rangeOf ht
  obtain ⟨v, hv⟩ := View.exists_narrow hw hrange.contiguous (t.whole_dtype ▸ hq) h.chunk_pos
    (h.chunk_le hk)
  obtain ⟨-, hreads⟩ := (View.narrow_ensures hw (h.stop_lt ht hk)).of_ok hv
  obtain ⟨hd, -⟩ := View.follow_elems (s := .narrow (k * t.chunk count 0) (t.chunk count 0))
    hw.elems.scaled hv
  have hd : v.dtype = t.dtype := hd.trans t.whole_dtype
  obtain ⟨u, hu⟩ := View.exists_toTensor hreads.wellFormed (hrange.narrow hv).2.contiguous (hd ▸ hq)
  exact ⟨v, u, hv, hu⟩

/-! ## Along an inner dimension -/

/-- A part along any dimension of a float tensor, decoded and encoded again. -/
theorem Divides.splitPart_copies (hα : Scalar.Lossless α) (ht : t.WellFormed)
    (hq : t.dtype.isQuantized = false) (h : t.Divides count dim) {shape : Shape}
    (hshape : shape.dims = t.shape.dims.set dim (t.chunk count dim)) {k : Nat} (hk : k < count) :
    ∃ u, t.splitPart t.whole shape dim (t.chunk count dim) k = .ok u ∧ u.shape = shape ∧
      t.Copies (·.modify dim (· + k * t.chunk count dim)) u := by
  have hw := whole_wellFormed ht
  have hb : shape.size < Word.bound := by
    refine Nat.lt_of_le_of_lt ?_ hw.fits
    rw [Shape.size, hshape]
    exact volume_set_le (Nat.le_trans (Nat.le_add_left ..) (h.chunk_le hk))
  have hin {index : List Nat} (hi : InRange shape.dims index) :
      InRange t.shape.dims (index.modify dim (· + k * t.chunk count dim)) :=
    inRange_shift h.axis (h.chunk_le hk) (hshape ▸ hi)
  obtain ⟨values, hvalues⟩ := exists_visit hb fun hi => View.exists_get hw (hin hi)
  have hsize := visit_size hb hvalues
  let place (index : List Nat) : Nat :=
    linear t.shape.dims (index.modify dim (· + k * t.chunk count dim))
  have hvalue {index : List Nat} (hi : InRange shape.dims index) :
      ∃ c, t.elements.cell? (place index) = some c ∧
        values[linear shape.dims index]? = some c.decode := by
    obtain ⟨x, hx, hat⟩ := visit_at hb hvalues hi
    obtain ⟨c, hc, hget⟩ := get_decodes ht (hin hi)
    obtain rfl : x = c.decode := Except.ok.inj (hx.symm.trans hget)
    exact ⟨c, hc, hat⟩
  obtain ⟨e, he, hstored⟩ := Elements.stored_of_encode hα (t.dtype_elements ▸ hq) hb hsize hvalue
  refine ⟨.owning shape e, ?_, rfl, hstored.wellFormed, hstored.dtype.trans t.dtype_elements, hin,
    hstored.same⟩
  rw [splitPart, hvalues, ok_bind, ofValues, numel_eq hb, ok_bind]
  rw [t.dtype_elements] at he
  simp only [hsize, ne_eq, not_true_eq_false, if_false]
  rw [he]
  rfl

/-! ## All parts -/

/-- Where a cut gives parts, there are as many as were asked for, each a copy of its chunk. -/
theorem split_copies (hα : Scalar.Lossless α) (ht : t.WellFormed) {parts : List (Tensor α)}
    (h : t.split count dim = .ok parts) :
    t.Divides count dim ∧ parts.length = count ∧
      ∀ k u, parts[k]? = some u →
        u.shape.dims = t.shape.dims.set dim (t.chunk count dim) ∧
          t.Copies (·.modify dim (· + k * t.chunk count dim)) u := by
  obtain ⟨n, hn, hsplit⟩ := bind_eq_ok.mp h
  obtain ⟨hdiv, rfl⟩ := divides_of_chunkLength hn
  refine ⟨hdiv, ?_⟩
  split at hsplit
  · rename_i hzero
    subst hzero
    obtain ⟨views, hviews, hparts⟩ := bind_eq_ok.mp hsplit
    rw [hdiv.splitViews_eq ht] at hviews
    have hlen := (forall₂_of_mapM hviews).length_eq
    have hlen' := (forall₂_of_mapM hparts).length_eq
    rw [List.length_range] at hlen
    refine ⟨by omega, fun k u hu => ?_⟩
    have hk : k < count := by
      obtain ⟨hlt, -⟩ := List.getElem?_eq_some_iff.mp hu
      omega
    obtain ⟨v, hv, hat⟩ := getElem?_of_mapM hviews (List.getElem?_range hk)
    obtain ⟨u', hu', hat'⟩ := getElem?_of_mapM hparts hat
    obtain rfl : u' = u := Option.some.inj (hat'.symm.trans hu)
    exact hdiv.narrow_copies ht hk hv hu'
  · split at hsplit
    · exact absurd hsplit (fail_ne_ok _ _)
    rename_i hfloat
    obtain ⟨shape, hshape, hsplit⟩ := bind_eq_ok.mp hsplit
    rw [View.view_eq ht, ok_bind] at hsplit
    have hdims : shape.dims = t.shape.dims.set dim (t.chunk count dim) := by
      unfold Shape.withDim at hshape
      split at hshape
      · exact absurd hshape (fail_ne_ok _ _)
      · exact ofDims_eq_ok hshape
    have hlen := (forall₂_of_mapM hsplit).length_eq
    rw [List.length_range] at hlen
    refine ⟨hlen.symm, fun k u hu => ?_⟩
    have hk : k < count := by
      obtain ⟨hlt, -⟩ := List.getElem?_eq_some_iff.mp hu
      omega
    obtain ⟨u', hpart, hat⟩ := getElem?_of_mapM hsplit (List.getElem?_range hk)
    obtain rfl : u' = u := Option.some.inj (hat.symm.trans hu)
    obtain ⟨w, hw, rfl, hcopies⟩ :=
      hdiv.splitPart_copies hα ht (Bool.eq_false_iff.mpr hfloat) hdims hk
    obtain rfl : w = u' := Except.ok.inj (hw.symm.trans hpart)
    exact ⟨hdims, hcopies⟩

/-- A float tensor is cut wherever the parts are of one length. -/
theorem Divides.exists_split (hα : Scalar.Lossless α) (ht : t.WellFormed)
    (hq : t.dtype.isQuantized = false) (h : t.Divides count dim) :
    ∃ parts, t.split count dim = .ok parts := by
  have hview : t.view = .ok t.whole := View.view_eq ht
  rw [split, h.chunkLength_eq, ok_bind]
  split
  · rename_i hzero
    subst hzero
    have hviews : ∃ views, t.splitViews count = .ok views := by
      rw [h.splitViews_eq ht]
      exact exists_mapM fun k hk =>
        let ⟨v, _, hv, _⟩ := h.exists_narrow ht hq (List.mem_range.mp hk)
        ⟨v, hv⟩
    obtain ⟨views, hviews⟩ := hviews
    rw [hviews, ok_bind]
    rw [h.splitViews_eq ht] at hviews
    refine exists_mapM fun v hv => ?_
    obtain ⟨k, hk, hv⟩ := of_mem_mapM hviews hv
    obtain ⟨v', u, hv', hu⟩ := h.exists_narrow ht hq (List.mem_range.mp hk)
    obtain rfl : v' = v := Except.ok.inj (hv'.symm.trans hv)
    exact ⟨u, hu⟩
  · rw [if_neg (by rw [hq]; exact Bool.false_ne_true)]
    obtain ⟨shape, hshape, hdims⟩ := withDim_eq h.axis h.chunk_pos
      (Nat.le_trans (Nat.le_add_left ..) (h.chunk_le h.pos)) (whole_wellFormed ht).fits
    rw [hshape, ok_bind, hview, ok_bind]
    exact exists_mapM fun k hk =>
      let ⟨u, hu, _⟩ := h.splitPart_copies hα ht hq hdims (List.mem_range.mp hk)
      ⟨u, hu⟩

theorem split_error (h : ¬t.Divides count dim) : ∃ e, t.split count dim = .error (.error e) := by
  obtain ⟨e, he⟩ := chunkLength_error h
  exact ⟨e, by rw [split, he]; rfl⟩

/-- Where a cut gives parts, they are as many as were asked for and make up the dimension, and
part `k` reads at each index vector what the tensor reads `k` chunks further along the
dimension. A float tensor is cut if and only if there is such a dimension and it is a multiple
of the number of parts, and a cut that is refused is reported. -/
theorem split_partitions (m : Machine) (narrow : Binary32 → UInt16)
    (hn : Binary16.Rounds narrow) :
    letI := Binary32.scalarWith m ⟨Binary32.ofHalf, narrow⟩
    ∀ t : Tensor Binary32, t.WellFormed → ∀ count dim : Nat,
      let size := t.shape.dims.getD dim 0
      let chunk := size / count
      (∀ parts, t.split count dim = .ok parts →
        parts.length = count ∧ count * chunk = size ∧
          ∀ k u, parts[k]? = some u →
            u.dtype = t.dtype ∧ u.shape.dims = t.shape.dims.set dim chunk ∧
              ∀ index, InRange u.shape.dims index →
                ∃ x y, t.get (index.modify dim (· + k * chunk)) = .ok x ∧ u.get index = .ok y ∧
                  y.Agrees x) ∧
      (t.dtype.isQuantized = false → (t.split count dim).Reports ∧
        ((∃ parts, t.split count dim = .ok parts) ↔
          dim < t.shape.rank ∧ 0 < count ∧ size % count = 0)) := by
  let _ := Binary32.scalarWith m ⟨Binary32.ofHalf, narrow⟩
  have hα := hn.lossless m
  intro t ht count dim size chunk
  refine ⟨fun parts hparts => ?_, fun hq => ?_⟩
  · obtain ⟨hdiv, hlen, hall⟩ := split_copies hα ht hparts
    refine ⟨hlen, hdiv.count_mul_chunk, fun k u hu => ?_⟩
    obtain ⟨hdims, hcopies⟩ := hall k u hu
    refine ⟨hcopies.dtype, hdims, fun index hi => ?_⟩
    have hagrees : (u.value index).Agrees
        (t.value (index.modify dim (· + k * t.chunk count dim))) := by
      obtain ⟨a, b, ha, hb, hsame⟩ := hcopies.values hi
      rw [ha, hb]
      exact hsame.decode m narrow
    exact ⟨_, _, get_eq_value ht (hcopies.inRange hi), get_eq_value hcopies.wellFormed hi, hagrees⟩
  · by_cases hdiv : t.Divides count dim
    · obtain ⟨parts, hparts⟩ := hdiv.exists_split hα ht hq
      exact ⟨hparts ▸ trivial, iff_of_true ⟨parts, hparts⟩ ⟨hdiv.axis, hdiv.pos, hdiv.whole⟩⟩
    · obtain ⟨e, he⟩ := split_error hdiv
      refine ⟨he ▸ trivial, iff_of_false ?_ fun ⟨haxis, hpos, hwhole⟩ =>
        hdiv ⟨haxis, hpos, hwhole⟩⟩
      rintro ⟨parts, hparts⟩
      rw [he] at hparts
      cases hparts

/-- The halves cut along the last dimension: the second part of three starts with the second
value of each row. -/
theorem split_partitions_special :
    Binary16.Rounds (fun x => Binary16.narrow x.bits) ∧ specialHalves.WellFormed ∧
      specialHalves.dtype.isQuantized = false ∧
      ∃ parts u x y, specialHalves.split 3 2 = .ok parts ∧ parts.length = 3 ∧ parts[1]? = some u ∧
        u.shape.dims = [2, 2, 1] ∧ specialHalves.get [1, 0, 1] = .ok x ∧ u.get [1, 0, 0] = .ok y ∧
        y.Agrees x := by
  have hsplit := split_partitions (.scalar "x86_64" "linux") _ Binary16.rounds_narrow specialHalves
    specialHalves_wellFormed 3 2
  obtain ⟨hparts, hfloat⟩ := hsplit
  obtain ⟨parts, h⟩ := (hfloat rfl).2.mpr ⟨by decide, by decide, by decide⟩
  obtain ⟨hlen, -, hall⟩ := hparts parts h
  have hu : parts[1]? = some parts[1] := List.getElem?_eq_getElem (by omega)
  obtain ⟨-, hdims, hget⟩ := hall 1 _ hu
  obtain ⟨x, y, hx, hy, hagrees⟩ := hget [1, 0, 0]
    (by rw [hdims]; exact ⟨by decide, by decide, by decide, trivial⟩)
  exact ⟨Binary16.rounds_narrow, specialHalves_wellFormed, rfl, parts, _, x, y, h, hlen, hu, hdims,
    hx, hy, hagrees⟩

end Tensor

end BlockTensor

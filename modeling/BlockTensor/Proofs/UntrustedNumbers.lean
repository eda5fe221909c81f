import BlockTensor.Proofs.MappedElements
import BlockTensor.Proofs.Permutation

/-!
# Numbers that come from outside

The dimensions of a shape and the numbers of a mapping may be anything that a file says. An
empty shape, an empty dimension or a region outside the image is refused, but a number that
does not fit in a word is not: computing it overflows.

* `Shape.ofDims_outcome`: whether dimensions make a shape depends on its strides alone, so there
  are shapes of which the elements cannot be counted.
* `Mapping.make_outcome`: a mapping is made or refused exactly if the ends of its regions fit
  in words (`Mapping.Fits`), and what is made lies inside the image.
* `Shape.ofDims_overflows`, `Mapping.make_overflows`: small examples of what overflows.
-/

namespace BlockTensor

open Outcome

/-! ## Shapes -/

namespace Shape

/-- The place of an index vector is computed as a word, whatever the steps in between. -/
theorem offsetFrom_eq_check (axis : Nat) {acc : Nat} {dims index : List Nat}
    (h : InRange dims index) (hacc : acc < Word.bound) :
    offsetFrom axis acc dims (rowMajor dims) index = Word.check (acc + linear dims index) := by
  induction dims generalizing axis acc index with
  | nil =>
    obtain rfl := List.length_eq_zero_iff.mp h.length_eq
    exact (Word.check_of_lt hacc).symm
  | cons d dims ih =>
    obtain ⟨i, index, rfl⟩ := List.exists_cons_of_length_eq_add_one h.length_eq
    rw [rowMajor, offsetFrom, linear, if_neg (Nat.not_le.mpr h.1)]
    by_cases hterm : i * volume dims < Word.bound
    · rw [Word.mul_of_lt hterm, ok_bind]
      by_cases hsum : acc + i * volume dims < Word.bound
      · rw [Word.add_of_lt hsum, ok_bind, ih _ h.2 hsum, Nat.add_assoc]
      · rw [Word.add_of_le (by omega), Word.check_of_le (by omega)]
        rfl
    · rw [Word.mul_of_le (by omega), Word.check_of_le (by omega)]
      rfl

theorem offsetOf_eq_check {s : Shape} {index : List Nat} (h : InRange s.dims index) :
    s.offsetOf index = Word.check (linear s.dims index) := by
  rw [offsetOf, offset, if_neg (by simpa [rank] using h.length_eq), strides,
    offsetFrom_eq_check 0 h (by decide), Nat.zero_add]

/-- The strides of row-major order are no greater than the first. -/
theorem le_volume_tail {dims : List Nat} (h : ∀ d ∈ dims, 0 < d) :
    ∀ t ∈ rowMajor dims, t ≤ volume dims.tail := by
  induction dims with
  | nil => exact nofun
  | cons d dims ih =>
    obtain ⟨-, hdims⟩ := List.forall_mem_cons.mp h
    intro t ht
    rcases List.mem_cons.mp ht with rfl | ht
    · exact Nat.le_refl _
    · exact (ih hdims t ht).trans (volume_tail_le hdims)

theorem ofDims_nil : ofDims [] = .fail (.invalidShape .noDimension) := rfl

/-- A shape with an empty dimension is refused, and the first of them is named. -/
theorem ofDims_of_zero {dims : List Nat} (h : 0 ∈ dims) :
    ∃ i, dims[i]? = some 0 ∧ (∀ j < i, dims[j]? ≠ some 0) ∧
      ofDims dims = .fail (.invalidShape (.zeroDimension i dims)) := by
  have hlt : dims.findIdx (· == 0) < dims.length := List.findIdx_lt_length_of_exists ⟨0, h, rfl⟩
  refine ⟨dims.findIdx (· == 0), ?_, fun j hj hzero => ?_, ?_⟩
  · rw [List.getElem?_eq_getElem hlt]
    exact congrArg some (beq_iff_eq.mp (List.findIdx_getElem (w := hlt)))
  · obtain ⟨hj', hzero⟩ := List.getElem?_eq_some_iff.mp hzero
    have := List.not_of_lt_findIdx hj
    simp [hzero] at this
  · rw [ofDims, dif_neg (List.ne_nil_of_mem h), dif_neg fun hpos => Nat.lt_irrefl 0 (hpos 0 h)]

theorem ofDims_of_pos {dims : List Nat} (hne : dims ≠ []) (hpos : ∀ d ∈ dims, 0 < d) :
    ofDims dims = (do let _ ← Word.check (volume dims.tail); return ⟨dims, hne, hpos⟩) := by
  rw [ofDims, dif_neg hne, dif_pos hpos, ofPositive]

/-- The strides of a shape fit in words. -/
theorem volume_tail_lt {dims : List Nat} {s : Shape} (h : ofDims dims = .ok s) :
    volume s.dims.tail < Word.bound := by
  have hdims := ofDims_eq_ok h
  rw [ofDims_of_pos (hdims ▸ s.nonempty) (hdims ▸ s.pos)] at h
  obtain ⟨n, hn, -⟩ := bind_eq_ok.mp h
  rw [hdims]
  exact (Word.check_eq_ok.mp hn).1

/-- Dimensions that may be anything are refused if there are none or one of them is zero,
overflow if the product of those after the first does not fit in a word, and make a shape
otherwise. The strides of this shape fit in words. The number of its elements and that of its
rows are computed if a word can count the elements, and overflow if not. The place of an index
vector overflows where it does not fit in a word itself, and there is such a place exactly if
there are more than `Word.bound` elements. -/
theorem ofDims_outcome (dims : List Nat) :
    (dims = [] → ofDims dims = .fail (.invalidShape .noDimension)) ∧
    (0 ∈ dims → ∃ i, dims[i]? = some 0 ∧ (∀ j < i, dims[j]? ≠ some 0) ∧
      ofDims dims = .fail (.invalidShape (.zeroDimension i dims))) ∧
    (dims ≠ [] → 0 ∉ dims →
      (volume dims.tail < Word.bound → ∃ s, ofDims dims = .ok s ∧ s.dims = dims) ∧
      (Word.bound ≤ volume dims.tail → ofDims dims = .stop .overflow)) ∧
    ∀ s, ofDims dims = .ok s →
      s.dims = dims ∧ (∀ t ∈ s.strides, t < Word.bound) ∧
      (volume dims < Word.bound → s.numel = .ok (volume dims) ∧ s.rows = .ok s.rowCount) ∧
      (Word.bound ≤ volume dims → s.numel = .stop .overflow ∧ s.rows = .stop .overflow) ∧
      (∀ index, InRange dims index →
        (linear dims index < Word.bound → s.offsetOf index = .ok (linear dims index)) ∧
        (Word.bound ≤ linear dims index → s.offsetOf index = .stop .overflow)) ∧
      ((∀ index, InRange dims index → linear dims index < Word.bound) ↔
        volume dims ≤ Word.bound) := by
  refine ⟨fun h => h ▸ ofDims_nil, ofDims_of_zero, fun hne h0 => ?_, fun s hs => ?_⟩
  · have hpos : ∀ d ∈ dims, 0 < d := fun d hd => Nat.pos_of_ne_zero fun h => h0 (h ▸ hd)
    rw [ofDims_of_pos hne hpos]
    refine ⟨fun hlt => ⟨⟨dims, hne, hpos⟩, ?_, rfl⟩, fun hle => ?_⟩
    · rw [Word.check_of_lt hlt]
      rfl
    · rw [Word.check_of_le hle]
      rfl
  · obtain rfl := ofDims_eq_ok hs
    refine ⟨rfl, fun t ht => Nat.lt_of_le_of_lt (le_volume_tail s.pos t ht) (volume_tail_lt hs),
      fun hlt => ?_, fun hle => ?_, fun index hi => ?_, fun hall => ?_, fun hle index hi => ?_⟩
    · have hnumel : s.numel = .ok s.size := numel_eq hlt
      exact ⟨hnumel, by rw [rows, hnumel, ok_bind]; rfl⟩
    · have hnumel : s.numel = .stop .overflow := Word.check_of_le hle
      exact ⟨hnumel, by rw [rows, hnumel]; rfl⟩
    · rw [offsetOf_eq_check hi]
      exact ⟨Word.check_of_lt, Word.check_of_le⟩
    · -- the last element is the farthest
      have hpos := volume_pos s.pos
      have hlast : volume s.dims - 1 < volume s.dims := by omega
      have hlt := hall _ (inRange_unlinear hlast)
      rw [linear_unlinear hlast] at hlt
      omega
    · exact Nat.lt_of_lt_of_le (linear_lt hi) hle

theorem ofDims_outcome_square :
    [3, 3] ≠ [] ∧ 0 ∉ [3, 3] ∧ volume [3, 3].tail < Word.bound ∧ volume [3, 3] < Word.bound ∧
      ∃ s, ofDims [3, 3] = .ok s ∧ s.numel = .ok 9 ∧ s.offsetOf [2, 2] = .ok 8 := by
  obtain ⟨-, -, hmade, hshape⟩ := ofDims_outcome [3, 3]
  obtain ⟨s, hs, -⟩ := (hmade (by decide) (by decide)).1 (by decide)
  obtain ⟨-, -, hnumel, -, hoffset, -⟩ := hshape s hs
  exact ⟨by decide, by decide, by decide, by decide, s, hs, (hnumel (by decide)).1,
    (hoffset [2, 2] ⟨by decide, by decide, trivial⟩).1 (by decide)⟩

/-- Dimensions that are all positive can overflow by their strides, and a shape of which the
strides fit can have more elements than words count. -/
theorem ofDims_overflows :
    ofDims [1, 2 ^ 32, 2 ^ 32] = .stop .overflow ∧
      ∃ s, ofDims [2 ^ 32, 2 ^ 32] = .ok s ∧ s.numel = .stop .overflow ∧
        s.rows = .stop .overflow :=
  ⟨rfl, ⟨[2 ^ 32, 2 ^ 32], by decide, by decide⟩, rfl, rfl, rfl⟩

end Shape

/-! ## Mappings -/

namespace Mapping

/-- The length of a region or its end does not fit in a word. -/
theorem measure_overflows {γ : Type} {bytes : Array UInt8} {offset blocks unit : Nat}
    (h : Word.bound ≤ offset + blocks * unit) (k : Unit → Outcome γ) :
    (do let len ← Word.mul blocks unit; let u ← checkRegion bytes offset len; k u) =
      .stop .overflow := by
  by_cases hlen : blocks * unit < Word.bound
  · rw [Word.mul_of_lt hlen, ok_bind, checkRegion, Word.add_of_le h]
    rfl
  · rw [Word.mul_of_le (Nat.le_of_not_lt hlen)]
    rfl

theorem make_of_not_fits {m : Mapping} (h : ¬m.Fits) :
    make m.bytes m.dtype m.count m.dataOffset m.scalesOffset = .stop .overflow := by
  obtain ⟨bytes, d, count, dataOffset, scalesOffset⟩ := m
  have hwanted : scalesOffset.isSome = d.isQuantized := by
    by_contra hne
    exact h ⟨fun hw => absurd hw hne, fun hw => absurd hw hne⟩
  have hmissing : ¬(d.isQuantized ∧ scalesOffset = none) := by
    rintro ⟨hq, rfl⟩
    rw [hq] at hwanted
    cases hwanted
  have hunwanted : ¬(¬d.isQuantized ∧ scalesOffset ≠ none) := by
    rintro ⟨hq, hsome⟩
    exact hq (hwanted ▸ Option.isSome_iff_ne_none.mpr hsome)
  unfold make
  dsimp only
  rw [if_neg hmissing, if_neg hunwanted]
  by_cases hdata : dataOffset + d.blocksFor count * d.unitBytes < Word.bound
  · -- then the data are inside, and it is the scales that end beyond the words
    have hscales : dataOffset + d.blocksFor count * d.unitBytes ≤ bytes.size ∧
        ∃ o ∈ scalesOffset, Word.bound ≤ o + d.scaleBytes count := by
      by_contra hno
      refine h ⟨fun _ => hdata, fun _ hinside o ho => ?_⟩
      by_contra hle
      exact hno ⟨hinside, o, ho, Nat.le_of_not_lt hle⟩
    obtain ⟨hinside, o, rfl, ho⟩ := hscales
    rw [scaleBytes_of_isQuantized hwanted.symm] at ho
    rw [Word.mul_of_lt (by omega), ok_bind, checkRegion_of_le hinside hdata, ok_bind]
    exact measure_overflows ho _
  · exact measure_overflows (Nat.le_of_not_lt hdata) _

/-- Making a mapping gives the mapping or reports an error exactly if the ends of its regions
fit in words, as far as they are looked at, and overflows otherwise. What is made lies inside
the image. -/
theorem make_outcome (m : Mapping) :
    let made := make m.bytes m.dtype m.count m.dataOffset m.scalesOffset
    (Reports made ↔ m.Fits) ∧
    (¬m.Fits → made = .stop .overflow) ∧
    ∀ m', made = .ok m' → m' = m ∧
      m.dataOffset + m.dtype.dataBytes m.count ≤ m.bytes.size ∧
      ∀ o ∈ m.scalesOffset, o + m.dtype.scaleBytes m.count ≤ m.bytes.size := by
  intro made
  refine ⟨⟨fun hreports => ?_, make_reports⟩, make_of_not_fits, fun m' hm' => ?_⟩
  · by_contra hfits
    exact (make_of_not_fits hfits ▸ hreports : Reports (.stop .overflow : Outcome Mapping))
  · have hbase : 0 % pageSize = 0 := rfl
    obtain ⟨rfl, hsound⟩ := make_eq_ok hbase hm'
    exact ⟨rfl, hsound.dataInside, hsound.scalesInside⟩

/-- One value, which takes the whole of an image of four bytes. -/
def fullImage : Mapping := ⟨#[0, 0, 128, 63], .f32, 1, 0, none⟩

theorem make_outcome_fullImage :
    make fullImage.bytes .f32 1 0 none = .ok fullImage ∧
      Reports (make fullImage.bytes .f32 1 0 none) ∧ fullImage.Fits ∧
      ¬(⟨fullImage.bytes, .f32, 2 ^ 62, 0, none⟩ : Mapping).Fits ∧
      make fullImage.bytes .f32 (2 ^ 62) 0 none = .stop .overflow ∧
      0 + 4 ≤ fullImage.bytes.size := by
  obtain ⟨hreports, -, hinside⟩ := make_outcome fullImage
  obtain ⟨-, hoverflows, -⟩ := make_outcome ⟨fullImage.bytes, .f32, 2 ^ 62, 0, none⟩
  have hmade : make fullImage.bytes .f32 1 0 none = .ok fullImage := rfl
  have hlarge : ¬(⟨fullImage.bytes, .f32, 2 ^ 62, 0, none⟩ : Mapping).Fits :=
    fun h => absurd (h.data rfl) (by decide)
  have hfits : fullImage.Fits := hreports.mp trivial
  exact ⟨hmade, hreports.mpr hfits, hfits, hlarge, hoverflows hlarge,
    (hinside fullImage hmade).2.1⟩

/-- A region of more bytes than words count is not found to lie outside a file of four. -/
theorem make_overflows :
    make #[0, 0, 0, 0] .f32 (2 ^ 62) 0 none = .stop .overflow ∧
      ¬Reports (make #[0, 0, 0, 0] .f32 (2 ^ 62) 0 none) := by
  have h : make #[0, 0, 0, 0] .f32 (2 ^ 62) 0 none = .stop .overflow := rfl
  exact ⟨h, h ▸ id⟩

end Mapping

end BlockTensor

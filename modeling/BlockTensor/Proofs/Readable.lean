import BlockTensor.Proofs.View
import BlockTensor.Tensor.Transform
import BlockTensor.Float.Binary32

/-!
# Tensors over given elements

A tensor over existing elements is made if these are the blocks of its shape; how many
scales they come with is not looked at. An element is read with the scale of its block, so
`Elements.Covers n` says that there are scales for the first `n`.

* `exists_get_of_covers`, `get_of_not_covers`: an element can be read if there is a scale
  for it, and reading it aborts if not.
* `Tensor.ofElements_reads`: so all elements can be listed and copied if there are scales
  for those of the shape, and both abort if not.
-/

namespace BlockTensor

open Outcome Shape

variable {α : Type}

namespace Elements

/-- There is a scale to each block of the first `n` elements, if the encoding has scales. -/
def Covers (e : Elements α) (n : Nat) : Prop := e.dtype.isQuantized → blocksOf n ≤ e.scaleCount

theorem blocksOf_succ (i : Nat) : blocksOf (i + 1) = i / blockSize + 1 := by
  simp only [blocksOf, blockSize]
  omega

theorem blocksOf_mono {m n : Nat} (h : m ≤ n) : blocksOf m ≤ blocksOf n := by
  simp only [blocksOf]
  omega

theorem Covers.mono {e : Elements α} {m n : Nat} (h : e.Covers n) (hm : m ≤ n) : e.Covers m :=
  fun hq => Nat.le_trans (blocksOf_mono hm) (h hq)

variable {e : Elements α} {n : Nat}

theorem nibbles_le {data : Array UInt8} (h : data.size * 2 = blocksOf n * blockSize) :
    blocksOf n * q4BlockBytes ≤ data.size := by
  simp only [blockSize, q4BlockBytes] at *
  omega

/-- The first elements of whole blocks can be cut out if they have scales. -/
theorem exists_take (hsize : e.size = e.dtype.blocksFor n * e.dtype.blockSize) (h : e.Covers n) :
    ∃ e', e.take n = .ok e' := by
  cases e with
  | f32 data | f16 data | bf16 data =>
    have hle : n ≤ data.size := by rw [show data.size = n * 1 from hsize]; omega
    exact ⟨_, by rw [take, Buffer.cut_of_le (Nat.zero_le _) hle]; rfl⟩
  | q8 data scales =>
    have hdata : blocksOf n * blockSize ≤ data.size := Nat.le_of_eq hsize.symm
    exact ⟨_, by
      rw [take, Buffer.cut_of_le (Nat.zero_le _) hdata, ok_bind,
        Buffer.cut_of_le (Nat.zero_le _) (h rfl)]
      rfl⟩
  | q4 data scales =>
    exact ⟨_, by
      rw [take, Buffer.cut_of_le (Nat.zero_le _) (nibbles_le hsize), ok_bind,
        Buffer.cut_of_le (Nat.zero_le _) (h rfl)]
      rfl⟩

theorem take_of_not_covers (hsize : e.size = e.dtype.blocksFor n * e.dtype.blockSize)
    (h : ¬e.Covers n) : e.take n = .stop .outOfBounds := by
  obtain ⟨hq, hs⟩ := Classical.not_imp.mp h
  cases e with
  | f32 data | f16 data | bf16 data => cases hq
  | q8 data scales =>
    have hdata : blocksOf n * blockSize ≤ data.size := Nat.le_of_eq hsize.symm
    rw [take, Buffer.cut_of_le (Nat.zero_le _) hdata, ok_bind, Buffer.cut,
      if_neg fun hle => hs hle.2]
    rfl
  | q4 data scales =>
    rw [take, Buffer.cut_of_le (Nat.zero_le _) (nibbles_le hsize), ok_bind, Buffer.cut,
      if_neg fun hle => hs hle.2]
    rfl

variable [Scalar α]

theorem exists_get_of_covers (hsize : e.size % e.dtype.blockSize = 0) {i : Nat} (hi : i < e.size)
    (h : e.Covers (i + 1)) : ∃ v, e.get i = .ok v := by
  have hs (hq : e.dtype.isQuantized) : i / blockSize < e.scaleCount := by
    have h := h hq
    rwa [blocksOf_succ] at h
  obtain ⟨c, hc⟩ := exists_cell_of_scale hi (Nat.le_refl _) hsize hs
  exact ⟨c.decode, by rw [get_eq_cell, hc]⟩

theorem get_of_not_covers {i : Nat} (h : ¬e.Covers (i + 1)) : e.get i = .stop .outOfBounds := by
  obtain ⟨hq, hs⟩ := Classical.not_imp.mp h
  rw [blocksOf_succ, Nat.not_le, Nat.lt_succ_iff] at hs
  rw [get_eq_cell, cell?_eq_none_of_scale hq hs]

theorem exists_read (hmod : e.size % e.dtype.blockSize = 0) (hle : n ≤ e.size)
    (hb : e.size < Word.bound) (h : e.Covers n) : ∃ values, e.read 0 n = .ok values := by
  rw [read_eq_generate e (by rwa [Nat.zero_add]) hb]
  refine ⟨_, Buffer.generate_of_ok (g := e.value) fun i hi => ?_⟩
  rw [Nat.zero_add]
  obtain ⟨v, hv⟩ := exists_get_of_covers hmod (Nat.lt_of_lt_of_le hi hle) (h.mono hi)
  rw [hv, value_of_get hv]

theorem read_of_not_covers (hmod : e.size % e.dtype.blockSize = 0) (hle : n ≤ e.size)
    (hb : e.size < Word.bound) (h : ¬e.Covers n) : e.read 0 n = .stop .outOfBounds := by
  have hpos : 0 < n := by
    refine Nat.pos_of_ne_zero ?_
    rintro rfl
    exact h fun _ => Nat.zero_le _
  have hsteps : ∀ i ∈ List.range' 0 n, (∃ v, e.get i = .ok v) ∨ e.get i = .stop .outOfBounds := by
    intro i hi
    have hlt : i < e.size := by
      rw [← List.range_eq_range', List.mem_range] at hi
      exact Nat.lt_of_lt_of_le hi hle
    by_cases hi : e.Covers (i + 1)
    · exact .inl (exists_get_of_covers hmod hlt hi)
    · exact .inr (get_of_not_covers hi)
  -- the last element is in the last block
  have hlast : ∃ i ∈ List.range' 0 n, e.get i = .stop .outOfBounds := by
    refine ⟨n - 1, ?_, get_of_not_covers ?_⟩
    · rw [← List.range_eq_range', List.mem_range]
      exact Nat.sub_lt hpos Nat.one_pos
    · rwa [Nat.sub_add_cancel hpos]
  have hstop : (List.range' 0 n).mapM e.get = .stop .outOfBounds := mapM_eq_error hsteps hlast
  rw [read_eq_generate e (by rwa [Nat.zero_add]) hb, Buffer.generate_eq_mapM, hstop]
  rfl

end Elements

namespace Tensor

/-- Elements from which a tensor was made are the blocks of its shape. -/
theorem ofElements_eq_ok {e : Elements α} {shape : Shape} {t : Tensor α}
    (h : ofElements e shape = .ok t) :
    t = owning shape e ∧ shape.size < Word.bound ∧ e.size < Word.bound ∧
      e.size = e.dtype.blocksFor shape.size * e.dtype.blockSize := by
  obtain ⟨n, hn, h⟩ := bind_eq_ok.mp h
  obtain ⟨hb, rfl⟩ := Word.check_eq_ok.mp hn
  obtain ⟨expected, hexpected, h⟩ := bind_eq_ok.mp h
  obtain ⟨hfits, rfl⟩ := Word.check_eq_ok.mp hexpected
  split at h
  · rename_i hsize
    exact ⟨(Except.ok.inj h).symm, hb, hsize ▸ hfits, hsize⟩
  · exact absurd h (fail_ne_ok _ _)

variable [Scalar α]

theorem view_owning {shape : Shape} {e : Elements α} (hb : shape.size < Word.bound)
    (hle : shape.size ≤ e.size) : (owning shape e).view = .ok ⟨shape, shape.strides, e⟩ :=
  View.of_of_le hb hle

/-- What is read of a tensor over existing elements, and when. An element needs a scale to
its block, and all of them need one to each block. -/
theorem ofElements_reads {e : Elements α} {shape : Shape} {t : Tensor α}
    (h : ofElements e shape = .ok t) :
    (∀ index, InRange shape.dims index →
      (e.Covers (linear shape.dims index + 1) → ∃ v, t.get index = .ok v) ∧
        (¬e.Covers (linear shape.dims index + 1) → t.get index = .stop .outOfBounds)) ∧
      (e.Covers shape.size →
        (∃ vs, t.values = .ok vs) ∧ ∃ u, (do (← t.view).toTensor) = .ok u) ∧
      (¬e.Covers shape.size →
        t.values = .stop .outOfBounds ∧ (do (← t.view).toTensor) = .stop .outOfBounds) := by
  obtain ⟨rfl, hb, hfits, hsize⟩ := ofElements_eq_ok h
  have hle : shape.size ≤ e.size := hsize ▸ DType.blocksFor_le ..
  have hmod : e.size % e.dtype.blockSize = 0 := hsize ▸ Nat.mul_mod_left ..
  have hget {index : List Nat} (hi : InRange shape.dims index) :
      (owning shape e).get index = e.get (linear shape.dims index) := by
    have hoffset : (owning shape e).shape.offsetOf index = .ok (linear shape.dims index) :=
      offsetOf_eq hi hb
    rw [get, hoffset]
    rfl
  have hcontiguous : View.isContiguous ⟨shape, shape.strides, e⟩ = true :=
    View.isContiguous_iff.mpr rfl
  have hvalues : (owning shape e).values = e.read 0 shape.size := by
    rw [values, view_owning hb hle, ok_bind, View.values, if_pos hcontiguous]
    rfl
  have hcopy : (do (← (owning shape e).view).toTensor) =
      (do return owning shape (← e.take shape.size)) := by
    rw [view_owning hb hle, ok_bind, View.toTensor, if_pos hcontiguous]
    rfl
  rw [hvalues, hcopy]
  refine ⟨fun index hi => ?_, fun hcovers => ⟨Elements.exists_read hmod hle hfits hcovers, ?_⟩,
    fun hcovers => ⟨Elements.read_of_not_covers hmod hle hfits hcovers, ?_⟩⟩
  · rw [hget hi]
    exact ⟨Elements.exists_get_of_covers hmod (Nat.lt_of_lt_of_le (linear_lt hi) hle),
      Elements.get_of_not_covers⟩
  · obtain ⟨e', he'⟩ := Elements.exists_take hsize hcovers
    exact ⟨owning shape e', by rw [he']; rfl⟩
  · rw [Elements.take_of_not_covers hsize hcovers]
    rfl

/-- The shape of forty elements, some of which are in a second block. -/
def twoBlocks : Shape := ⟨[40], by decide, by decide⟩

/-- Two blocks of codes with one scale. -/
def halfScaled : Elements Binary32 := .q8 (.replicate 64 1) #[⟨0x3f800000⟩]

theorem ofElements_reads_missingScale :
    ofElements halfScaled twoBlocks = .ok (owning twoBlocks halfScaled) ∧
      (∃ v, (owning twoBlocks halfScaled).get [31] = .ok v) ∧
      (owning twoBlocks halfScaled).get [32] = .stop .outOfBounds ∧
      (owning twoBlocks halfScaled).values = .stop .outOfBounds := by
  have hmade : ofElements halfScaled twoBlocks = .ok (owning twoBlocks halfScaled) := rfl
  obtain ⟨hget, -, hstop⟩ := ofElements_reads hmade
  obtain ⟨hcovered, -⟩ := hget [31] ⟨by decide, trivial⟩
  obtain ⟨-, hmissing⟩ := hget [32] ⟨by decide, trivial⟩
  have huncovered {n : Nat} (hn : 32 < n) : ¬halfScaled.Covers n := by
    intro h
    have hle : blocksOf n ≤ 1 := h rfl
    simp only [blocksOf] at hle
    omega
  exact ⟨hmade, hcovered fun _ => by decide, hmissing (huncovered (by decide)),
    (hstop (huncovered (by decide))).1⟩

/-- The shape of less than a block. -/
def partBlock : Shape := ⟨[24], by decide, by decide⟩

/-- Codes without a scale make a tensor of which no element can be read. -/
theorem ofElements_unreadable :
    ∃ t : Tensor Binary32, ofElements (.q8 (.replicate 32 0) #[]) partBlock = .ok t ∧
      InRange t.shape.dims [0] ∧ t.get [0] = .stop .outOfBounds ∧
      t.values = .stop .outOfBounds ∧ (do (← t.view).toTensor) = .stop .outOfBounds :=
  ⟨owning partBlock (.q8 (.replicate 32 0) #[]), rfl, ⟨by decide, trivial⟩, rfl, rfl, rfl⟩

end Tensor

end BlockTensor

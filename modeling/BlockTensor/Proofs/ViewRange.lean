import BlockTensor.Proofs.Copy
import BlockTensor.Proofs.ViewChain

/-!
# Views as ranges of their owner

A quantized view has no strides, so every chain of views of a quantized tensor
ends with a range of its elements (`RangeOf.followAll`): `View.startAt` is where
it starts, and what is not a whole block of the view are the elements that follow
it in the tensor.
-/

namespace BlockTensor

open Outcome Shape

namespace View

variable {α : Type}

/-- The element of a contiguous view at which the view one step away starts. -/
def Step.start (dims : List Nat) : Step → Nat
  | slice i => i * volume (dims.drop 1)
  | sliceAt fixed => linear (dims.take fixed.length) fixed * volume (dims.drop fixed.length)
  | narrow start _ => start * volume (dims.drop 1)
  | reshape _ | transpose _ => 0

/-- The element at which the view at the end of a chain starts. -/
def startAt : (dims : List Nat) → List Step → Nat
  | _, [] => 0
  | dims, s :: steps => s.start dims + startAt (s.dims dims) steps

/-- A contiguous view of the elements from `start` on. -/
structure RangeOf (v : View α) (e : Elements α) (start : Nat) : Prop where
  contiguous : v.isContiguous = true
  range : e.IsRange start v.size v.elems

/-- Every step keeps the encoding and whole blocks. -/
theorem follow_elems {v w : View α} (h : v.elems.Scaled) {s : Step} (hw : v.follow s = .ok w) :
    w.dtype = v.dtype ∧ w.elems.Scaled := by
  have hslice {start : Nat} {shape : Shape}
      (hw : (do let elems ← v.elems.slice start shape.size; of shape elems) = .ok w) :
      w.dtype = v.dtype ∧ w.elems.Scaled := by
    obtain ⟨elems, helems, hw⟩ := bind_eq_ok.mp hw
    have hrange := Elements.slice_isRange h helems
    obtain ⟨-, -, rfl⟩ := of_eq_ok hw
    exact ⟨hrange.dtype, hrange.scaled⟩
  have hsliceAt {fixed : List Nat} (hw : v.sliceAt fixed = .ok w) :
      w.dtype = v.dtype ∧ w.elems.Scaled := by
    obtain ⟨elems, helems, hw⟩ := bind_eq_ok.mp hw
    obtain ⟨-, rfl⟩ := v.contiguous_ensures.of_ok helems
    obtain ⟨sub, -, hw⟩ := bind_eq_ok.mp hw
    obtain ⟨first, -, hw⟩ := bind_eq_ok.mp hw
    exact hslice hw
  cases s with
  | slice i => exact hsliceAt hw
  | sliceAt fixed => exact hsliceAt hw
  | narrow start count =>
    obtain ⟨elems, helems, hw⟩ := bind_eq_ok.mp hw
    obtain ⟨-, rfl⟩ := v.contiguous_ensures.of_ok helems
    obtain ⟨stop, -, hw⟩ := bind_eq_ok.mp hw
    dsimp only at hw
    split at hw
    · exact absurd hw (fail_ne_ok _ _)
    obtain ⟨shape, -, hw⟩ := bind_eq_ok.mp hw
    exact hslice hw
  | reshape shape =>
    obtain ⟨n, -, hw⟩ := bind_eq_ok.mp hw
    dsimp only at hw
    split at hw
    · exact absurd hw (fail_ne_ok _ _)
    obtain ⟨elems, helems, hw⟩ := bind_eq_ok.mp hw
    obtain ⟨-, rfl⟩ := v.contiguous_ensures.of_ok helems
    obtain ⟨-, -, rfl⟩ := of_eq_ok hw
    exact ⟨rfl, h⟩
  | transpose perm =>
    simp only [View.follow, View.transpose] at hw
    split at hw
    · exact absurd hw (fail_ne_ok _ _)
    obtain ⟨shape, -, hw⟩ := bind_eq_ok.mp hw
    obtain rfl := Except.ok.inj hw
    exact ⟨rfl, h⟩

theorem followAll_elems {v w : View α} (h : v.elems.Scaled) {steps : List Step}
    (hw : v.followAll steps = .ok w) : w.dtype = v.dtype ∧ w.elems.Scaled := by
  induction steps generalizing v with
  | nil =>
    obtain rfl := Except.ok.inj hw
    exact ⟨rfl, h⟩
  | cons s steps ih =>
    rw [View.followAll, List.foldlM_cons] at hw
    obtain ⟨u, hu, hw⟩ := bind_eq_ok.mp hw
    obtain ⟨hd, hs⟩ := follow_elems h hu
    obtain ⟨hd', hs'⟩ := ih hs hw
    exact ⟨hd'.trans hd, hs'⟩

theorem rangeOf_of {e e' : Elements α} {start : Nat} {shape : Shape} {v : View α}
    (hrange : e.IsRange start shape.size e') (h : of shape e' = .ok v) :
    v.shape = shape ∧ v.RangeOf e start := by
  obtain ⟨-, -, rfl⟩ := of_eq_ok h
  exact ⟨rfl, isContiguous_iff.mpr rfl, hrange⟩

theorem RangeOf.sliceAt {v w : View α} {e : Elements α} {start : Nat} (h : v.RangeOf e start)
    {fixed : List Nat} (hw : v.sliceAt fixed = .ok w) :
    w.shape.dims = v.shape.dims.drop fixed.length ∧
      w.RangeOf e (start + (Step.sliceAt fixed).start v.shape.dims) := by
  obtain ⟨elems, helems, hw⟩ := bind_eq_ok.mp hw
  obtain ⟨hc, rfl⟩ := v.contiguous_ensures.of_ok helems
  obtain ⟨sub, hsub, hw⟩ := bind_eq_ok.mp hw
  obtain ⟨first, hfirst, hpart⟩ := bind_eq_ok.mp hw
  obtain ⟨elems, hslice, hof⟩ := bind_eq_ok.mp hpart
  have hlen : fixed.length ≤ v.shape.dims.length := by
    unfold Shape.drop at hsub
    split at hsub
    · exact absurd hsub (fail_ne_ok _ _)
    · rename_i hrank
      exact Nat.le_of_lt (Nat.not_le.mp hrank)
  rw [isContiguous_iff.mp hc] at hfirst
  obtain ⟨-, rfl⟩ := (startOf_ensures 0 0 hlen).of_ok hfirst
  rw [Nat.zero_add] at hslice
  have hcut := h.range.trans (Elements.slice_isRange h.range.scaled hslice)
  obtain ⟨rfl, hrange⟩ := rangeOf_of hcut hof
  exact ⟨drop_dims hsub, hrange⟩

theorem RangeOf.narrow {v w : View α} {e : Elements α} {start : Nat} (h : v.RangeOf e start)
    {first count : Nat} (hw : v.narrow first count = .ok w) :
    w.shape.dims = v.shape.dims.set 0 count ∧
      w.RangeOf e (start + (Step.narrow first count).start v.shape.dims) := by
  obtain ⟨elems, helems, hw⟩ := bind_eq_ok.mp hw
  obtain ⟨hc, rfl⟩ := v.contiguous_ensures.of_ok helems
  obtain ⟨stop, -, hw⟩ := bind_eq_ok.mp hw
  dsimp only at hw
  split at hw
  · exact absurd hw (fail_ne_ok _ _)
  obtain ⟨shape, hshape, hw⟩ := bind_eq_ok.mp hw
  obtain ⟨elems, hslice, hw⟩ := bind_eq_ok.mp hw
  have hdims : shape.dims = v.shape.dims.set 0 count := by
    unfold Shape.withDim at hshape
    split at hshape
    · exact absurd hshape (fail_ne_ok _ _)
    · exact ofDims_eq_ok hshape
  obtain ⟨d, dims, hd⟩ := List.exists_cons_of_ne_nil v.shape.nonempty
  have hstride : v.strides.headD 0 = volume (v.shape.dims.drop 1) := by
    rw [isContiguous_iff.mp hc, Shape.strides, hd]
    rfl
  rw [hstride] at hslice
  have hcut := h.range.trans (Elements.slice_isRange h.range.scaled hslice)
  obtain ⟨rfl, hrange⟩ := rangeOf_of hcut hw
  exact ⟨hdims, hrange⟩

theorem RangeOf.reshape {v w : View α} {e : Elements α} {start : Nat} (h : v.RangeOf e start)
    {shape : Shape} (hw : v.reshape shape = .ok w) : w.shape = shape ∧ w.RangeOf e start := by
  obtain ⟨n, hn, hw⟩ := bind_eq_ok.mp hw
  obtain ⟨-, rfl⟩ := Word.check_eq_ok.mp hn
  dsimp only at hw
  split at hw
  · exact absurd hw (fail_ne_ok _ _)
  rename_i hsize
  have hsize : shape.size = v.size := Classical.not_not.mp hsize
  obtain ⟨elems, helems, hw⟩ := bind_eq_ok.mp hw
  obtain ⟨-, rfl⟩ := v.contiguous_ensures.of_ok helems
  exact rangeOf_of (hsize ▸ h.range) hw

/-- A step from a quantized view leads to a range of it. -/
theorem RangeOf.follow {v w : View α} {e : Elements α} {start : Nat} (h : v.RangeOf e start)
    (hq : e.dtype.isQuantized) {s : Step} (hw : v.follow s = .ok w) :
    w.shape.dims = s.dims v.shape.dims ∧ w.RangeOf e (start + s.start v.shape.dims) := by
  cases s with
  | slice i =>
    have hw : v.sliceAt [i] = .ok w := hw
    obtain ⟨hdims, hrange⟩ := h.sliceAt hw
    obtain ⟨d, dims, hd⟩ := List.exists_cons_of_ne_nil v.shape.nonempty
    have hstart : (Step.sliceAt [i]).start v.shape.dims = (Step.slice i).start v.shape.dims := by
      simp [Step.start, hd, linear]
    exact ⟨hdims, hstart ▸ hrange⟩
  | sliceAt fixed => exact h.sliceAt hw
  | narrow first count => exact h.narrow hw
  | reshape shape =>
    obtain ⟨rfl, hrange⟩ := h.reshape hw
    exact ⟨rfl, hrange⟩
  | transpose perm =>
    have hv : v.dtype.isQuantized = true := by
      rw [View.dtype, h.range.dtype]
      exact hq
    simp only [View.follow, View.transpose, hv, if_true] at hw
    exact absurd hw (fail_ne_ok _ _)

/-- So does a chain. -/
theorem RangeOf.followAll {v w : View α} {e : Elements α} {start : Nat} (h : v.RangeOf e start)
    (hq : e.dtype.isQuantized) {steps : List Step} (hw : v.followAll steps = .ok w) :
    w.shape.dims = chainDims v.shape.dims steps ∧
      w.RangeOf e (start + startAt v.shape.dims steps) := by
  induction steps generalizing v start with
  | nil =>
    obtain rfl := Except.ok.inj hw
    exact ⟨rfl, h⟩
  | cons s steps ih =>
    rw [View.followAll, List.foldlM_cons] at hw
    obtain ⟨u, hu, hw⟩ := bind_eq_ok.mp hw
    obtain ⟨hdims, hnext⟩ := h.follow hq hu
    obtain ⟨hdims', hrange⟩ := ih hnext hw
    rw [hdims] at hdims' hrange
    rw [Nat.add_assoc] at hrange
    exact ⟨hdims', hrange⟩

end View

end BlockTensor

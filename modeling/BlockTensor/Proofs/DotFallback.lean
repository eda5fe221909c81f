import BlockTensor.Proofs.Agreement
import BlockTensor.Proofs.KernelDot

/-!
# Dot products with a fallback

A backend that has no kernel for a pair decodes the window of the second operand into
a tensor of its own and tries again with that. The two ways agree with the reference
dot product, in exact arithmetic, on every window but one: a tensor has no empty
dimension, so an empty window of a pair without a kernel aborts
(`Backend.dotProductWithFallback_agrees`, `Backend.empty_window_aborts`).
-/

namespace BlockTensor

open Outcome Elements

variable {α : Type}

/-- Contiguous operands with windows of `n` elements inside them. -/
structure DotFits (a b : View α) (aOffset bOffset n : Nat) : Prop where
  aWellFormed : a.WellFormed
  bWellFormed : b.WellFormed
  aContiguous : a.isContiguous = true
  bContiguous : b.isContiguous = true
  aWindow : aOffset + n ≤ a.size
  bWindow : bOffset + n ≤ b.size

namespace DotFits

variable {a b : View α} {aOffset bOffset n : Nat}

theorem a_le (h : DotFits a b aOffset bOffset n) : aOffset + n ≤ a.elems.size :=
  Nat.le_trans h.aWindow (h.aWellFormed.size_le h.aContiguous)

theorem b_le (h : DotFits a b aOffset bOffset n) : bOffset + n ≤ b.elems.size :=
  Nat.le_trans h.bWindow (h.bWellFormed.size_le h.bContiguous)

theorem n_lt (h : DotFits a b aOffset bOffset n) : n < Word.bound := by
  have hle := h.b_le
  have hfits := h.bWellFormed.elems.fits
  omega

/-- The checks before a dot product pass. -/
theorem checks {β : Type} (h : DotFits a b aOffset bOffset n)
    (k : Elements α → Elements α → Outcome β) : (do
      checkWindow "dot_product" a.size aOffset n
      checkWindow "dot_product" b.size bOffset n
      let x ← a.contiguous
      let y ← b.contiguous
      k x y) = k a.elems b.elems := by
  rw [checkWindow_of_le h.aWindow h.aWellFormed.fits, ok_bind,
    checkWindow_of_le h.bWindow h.bWellFormed.fits, ok_bind,
    contiguous_of_isContiguous h.aContiguous, ok_bind, contiguous_of_isContiguous h.bContiguous,
    ok_bind]

variable [Scalar α] (h : DotFits a b aOffset bOffset n)

include h

theorem reference : Backend.reference.dotProduct a b aOffset bOffset n =
    .ok (inOrder a.elems aOffset b.elems bOffset n) :=
  (h.checks _).trans
    (Reference.dotElements_inOrder h.aWellFormed.elems.scaled h.bWellFormed.elems.scaled h.a_le
      h.b_le)

/-- Of a pair with a kernel, what the kernel gives. -/
theorem vector (p : Pool) (hs : Kernel.supports a.dtype b.dtype = true) :
    ∃ v, (Backend.vector p).dotProduct a b aOffset bOffset n = .ok v ∧
      (Scalar.Exact α → v = inOrder a.elems aOffset b.elems bOffset n) := by
  obtain ⟨v, hv, hexact⟩ :=
    Kernel.exists_dot h.aWellFormed.elems h.bWellFormed.elems h.a_le h.b_le hs
  refine ⟨v, (h.checks _).trans ?_, hexact⟩
  rw [hv]
  rfl

/-- A pair without one is refused. -/
theorem vector_refused (p : Pool) (hs : Kernel.supports a.dtype b.dtype = false) :
    (Backend.vector p).dotProduct a b aOffset bOffset n =
      .fail (.unsupportedCombination "dot_product" a.dtype b.dtype) := by
  refine (h.checks _).trans ?_
  rw [Kernel.dot_eq_none hs]
  rfl

end DotFits

/-! ## The decoded window -/

variable [Scalar α]

/-- As many values as a shape has elements, in that shape. -/
def windowView (e : Elements α) (start : Nat) (shape : Shape) : View α :=
  ⟨shape, shape.strides, .f32 (e.run start shape.size)⟩

section

variable {a b : View α} {aOffset bOffset n : Nat}

theorem size_windowView (e : Elements α) (start : Nat) (shape : Shape) :
    (windowView e start shape).elems.size = shape.size := size_run ..

theorem windowView_wellFormed (e : Elements α) (start : Nat) {shape : Shape}
    (hb : shape.size < Word.bound) : (windowView e start shape).elems.WellFormed :=
  ⟨trivial, by rwa [size_windowView]⟩

theorem value_windowView (e : Elements α) (start : Nat) {shape : Shape} {i : Nat}
    (hi : i < shape.size) : (windowView e start shape).elems.value i = e.value (start + i) := by
  simp [windowView, value, cell?, run, hi, Cell.decode]

/-- The values of a window as a tensor of their own. -/
theorem new_window_view (e : Elements α) (start : Nat) {shape : Shape}
    (hb : shape.size < Word.bound) :
    (do let decoded ← Tensor.new (e.run start shape.size) shape; decoded.view) =
      .ok (windowView e start shape) := by
  have hnew : Tensor.new (e.run start shape.size) shape =
      .ok (.owning shape (.f32 (e.run start shape.size))) := by
    rw [Tensor.new, Shape.numel_eq hb, ok_bind, if_pos (size_run ..)]
    rfl
  rw [hnew, ok_bind]
  exact View.of_eq (windowView_wellFormed e start hb) (Nat.le_of_eq (size_windowView ..).symm)

theorem DotFits.windowView {shape : Shape} (h : DotFits a b aOffset bOffset shape.size) :
    DotFits a (windowView b.elems bOffset shape) aOffset 0 shape.size where
  aWellFormed := h.aWellFormed
  bWellFormed := View.wellFormed_of (windowView_wellFormed _ _ h.n_lt)
    (Nat.le_of_eq (size_windowView ..).symm)
  aContiguous := h.aContiguous
  bContiguous := (View.isContiguous_iff (v := BlockTensor.windowView b.elems bOffset shape)).mpr rfl
  aWindow := h.aWindow
  bWindow := Nat.le_of_eq (Nat.zero_add _)

/-- A vector has elements. -/
theorem exists_vector_shape (hn : 0 < n) (hb : n < Word.bound) :
    ∃ shape : Shape, Shape.assert [n] = .ok shape ∧ shape.size = n :=
  ⟨_, Shape.assert_eq (List.cons_ne_nil n []) (by simpa using hn) (by simpa using hb),
    Nat.mul_one n⟩

/-- A pair without a kernel is tried again with its second window decoded. -/
theorem DotFits.fallback (h : DotFits a b aOffset bOffset n) (p : Pool)
    (hs : Kernel.supports a.dtype b.dtype = false) :
    (Backend.vector p).dotProductWithFallback a b aOffset bOffset n = (do
      let decoded ← Tensor.new (b.elems.run bOffset n) (← Shape.assert [n])
      (Backend.vector p).dotProduct a (← decoded.view) aOffset 0 n) := by
  have hchecks : checkWindow "dot_product" b.size bOffset n = .ok () :=
    checkWindow_of_le h.bWindow h.bWellFormed.fits
  have hread : b.elems.read bOffset n = .ok (b.elems.run bOffset n) :=
    read_eq_run h.bWellFormed.elems h.b_le
  rw [Backend.dotProductWithFallback, h.vector_refused p hs]
  show (checkWindow "dot_product" b.size bOffset n >>= fun _ => b.contiguous >>= fun e =>
    e.read bOffset n >>= fun values => _) = _
  rw [hchecks, ok_bind, contiguous_of_isContiguous h.bContiguous, ok_bind, hread, ok_bind]

end

namespace Backend

/-- If the window is not empty, or the pair has a kernel, the vectorized backend gives a
value for it, in exact arithmetic the one of the reference backend. For an empty window
of any other pair the reference value is zero, and the vectorized backend aborts. -/
theorem dotProductWithFallback_agrees (p : Pool) (a b : View α) (aOffset bOffset n : Nat)
    (h : DotFits a b aOffset bOffset n) :
    (0 < n ∨ Kernel.supports a.dtype b.dtype = true →
      ∃ v w, reference.dotProduct a b aOffset bOffset n = .ok v ∧
        (vector p).dotProductWithFallback a b aOffset bOffset n = .ok w ∧
        (Scalar.Exact α → w = v)) ∧
    (n = 0 → Kernel.supports a.dtype b.dtype = false →
      reference.dotProduct a b aOffset bOffset n = .ok 0 ∧
        (vector p).dotProductWithFallback a b aOffset bOffset n =
          .stop (.invalidShape [0])) := by
  constructor
  · intro hcase
    refine ⟨inOrder a.elems aOffset b.elems bOffset n, ?_⟩
    cases hs : Kernel.supports a.dtype b.dtype with
    | true =>
      obtain ⟨w, hw, hexact⟩ := h.vector p hs
      exact ⟨w, h.reference, by rw [dotProductWithFallback, hw], hexact⟩
    | false =>
      have hn : 0 < n := hcase.resolve_right (by rw [hs]; decide)
      obtain ⟨shape, hshape, rfl⟩ := exists_vector_shape hn h.n_lt
      obtain ⟨w, hw, hexact⟩ := h.windowView.vector p (supports_f32 a.dtype)
      refine ⟨w, h.reference, ?_, fun he => (hexact he).trans ?_⟩
      · obtain ⟨decoded, hdecoded, hview⟩ := bind_eq_ok.mp (new_window_view b.elems bOffset h.n_lt)
        rw [h.fallback p hs, hshape, ok_bind, hdecoded, ok_bind, hview, ok_bind, hw]
      · refine inOrder_congr fun i hi => ?_
        rw [Nat.zero_add, value_windowView _ _ hi]
  · rintro rfl hs
    refine ⟨h.reference, ?_⟩
    rw [h.fallback p hs]
    rfl

theorem dotProductWithFallback_agrees_unsupportedPair :
    DotFits nibbleRow patternRow 1 2 27 ∧
      reference.dotProduct nibbleRow patternRow 1 2 27 = .ok 162 ∧
      (vector threeWorkers).dotProductWithFallback nibbleRow patternRow 1 2 27 = .ok 162 := by
  have h : DotFits nibbleRow patternRow 1 2 27 :=
    ⟨View.wellFormed_of ⟨rfl, by decide⟩ (by decide), View.wellFormed_of ⟨trivial, by decide⟩
      (by decide), rfl, rfl, by decide, by decide⟩
  obtain ⟨v, w, hv, hw, hexact⟩ :=
    (dotProductWithFallback_agrees threeWorkers nibbleRow patternRow 1 2 27 h).1 (.inl (by decide))
  obtain rfl := hexact Scalar.exact
  have hval : reference.dotProduct nibbleRow patternRow 1 2 27 = .ok 162 := rfl
  obtain rfl : w = 162 := Except.ok.inj (hv.symm.trans hval)
  exact ⟨h, hv, hw⟩

/-- An empty window of nibbles: the reference value is zero, as it is for a pair with a
kernel, and decoding the window aborts. -/
theorem empty_window_aborts :
    DotFits nibbleRow nibbleRow 1 0 0 ∧ reference.dotProduct nibbleRow nibbleRow 1 0 0 = .ok 0 ∧
      (vector threeWorkers).dotProductWithFallback nibbleRow nibbleRow 1 0 0 =
        .stop (.invalidShape [0]) := by
  have h : nibbleRow.WellFormed := View.wellFormed_of ⟨rfl, by decide⟩ (by decide)
  exact ⟨⟨h, h, rfl, rfl, by decide, by decide⟩, rfl, rfl⟩

end Backend

end BlockTensor

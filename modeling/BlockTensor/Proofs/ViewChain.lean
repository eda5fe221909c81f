import BlockTensor.Proofs.View
import BlockTensor.Float.Binary32

/-!
# Chains of views

A `View.Step` is one way of making a view from a view. Each step has the
dimensions it leaves (`Step.dims`) and, for an index vector of the result, the
one it comes from (`Step.source`): fixed indices go in front, a narrowed index
moves by the start, a reshaped one keeps its place in row-major order, a
transposed one is permuted. `View.locate` composes them along a chain.

`chain_reads_owner`: whatever views are made of views of a tensor, each reads
the element that `locate` says, inside the tensor, and lists its values in
row-major order; no step aborts while its numbers fit in words. A count of
elements that does not fit is not caught (`reshape_overflows`).
-/

namespace BlockTensor.View

open Outcome Shape

/-- A way of making a view from a view. -/
inductive Step
  /-- Fix the leading index. -/
  | slice (i : Nat)
  /-- Fix some leading indices. -/
  | sliceAt (fixed : List Nat)
  /-- Keep some leading rows. -/
  | narrow (start count : Nat)
  /-- Read the elements in another shape. -/
  | reshape (shape : Shape)
  /-- Permute the axes. -/
  | transpose (perm : List Nat)

namespace Step

/-- The dimensions after a step. -/
def dims (dims : List Nat) : Step → List Nat
  | slice _ => dims.drop 1
  | sliceAt fixed => dims.drop fixed.length
  | narrow _ count => dims.set 0 count
  | reshape shape => shape.dims
  | transpose perm => permuted perm dims

/-- The index vector that one of the result comes from. -/
def source (dims : List Nat) (s : Step) (index : List Nat) : List Nat :=
  match s with
  | slice i => i :: index
  | sliceAt fixed => fixed ++ index
  | narrow start _ => index.modify 0 (start + ·)
  | reshape shape => unlinear dims (linear shape.dims index)
  | transpose perm => unpermute perm index

/-- The end of the rows and the number of elements that a step names are machine
words. -/
def Fits : Step → Prop
  | narrow start count => start + count < Word.bound
  | reshape shape => shape.size < Word.bound
  | _ => True

end Step

variable {α : Type}

/-- The view one step away. -/
def follow (v : View α) : Step → Outcome (View α)
  | .slice i => v.slice i
  | .sliceAt fixed => v.sliceAt fixed
  | .narrow start count => v.narrow start count
  | .reshape shape => v.reshape shape
  | .transpose perm => v.transpose perm

/-- The view at the end of a chain of steps. -/
def followAll (v : View α) (steps : List Step) : Outcome (View α) := steps.foldlM follow v

/-- The dimensions after a chain of steps. -/
def chainDims : (dims : List Nat) → List Step → List Nat
  | dims, [] => dims
  | dims, s :: steps => chainDims (s.dims dims) steps

/-- The index vector that one of the end of a chain comes from. -/
def locate : (dims : List Nat) → List Step → (index : List Nat) → List Nat
  | _, [], index => index
  | dims, s :: steps, index => s.source dims (locate (s.dims dims) steps index)

/-- A step makes a view that reads what its source says, or is refused. -/
theorem follow_ensures {v : View α} (h : v.WellFormed) {s : Step} (hs : s.Fits) :
    Ensures (v.follow s) fun w =>
      w.shape.dims = s.dims v.shape.dims ∧ v.Reads (s.source v.shape.dims) w := by
  cases s with
  | slice i => exact sliceAt_ensures h [i]
  | sliceAt fixed => exact sliceAt_ensures h fixed
  | narrow start count => exact narrow_ensures h hs
  | reshape shape => exact (reshape_ensures h hs).mono fun w hw => ⟨hw.1 ▸ rfl, hw.2⟩
  | transpose perm => exact transpose_ensures h perm

/-- What one step keeps, a chain keeps. -/
theorem followAll_ensures {v : View α} (h : v.WellFormed) {steps : List Step}
    (hs : ∀ s ∈ steps, s.Fits) :
    Ensures (v.followAll steps) fun w =>
      w.shape.dims = chainDims v.shape.dims steps ∧ v.Reads (locate v.shape.dims steps) w := by
  induction steps generalizing v with
  | nil => exact ensures_ok ⟨rfl, h.reads_self⟩
  | cons s steps ih =>
    rw [followAll, List.foldlM_cons]
    refine (follow_ensures h (hs s List.mem_cons_self)).bind ?_
    rintro u - ⟨hd, hu⟩
    refine (ih hu.wellFormed fun r hr => hs r (List.mem_cons_of_mem _ hr)).mono ?_
    rintro w ⟨hd', hw⟩
    rw [hd] at hd' hw
    exact ⟨hd', hu.trans hw⟩

variable [Scalar α]

theorem view_eq {t : Tensor α} (h : t.WellFormed) :
    t.view = .ok ⟨t.shape, t.shape.strides, t.elements⟩ := of_eq h.elems h.filled.size_le

/-- A chain of views of a tensor, with numbers that fit in words, never aborts;
where it gives a view, the view reads at each index vector the element of the
tensor in the place that the steps compose to, and lists these values in
row-major order, as it would if it visited them one by one. -/
theorem chain_reads_owner (t : Tensor α) (ht : t.WellFormed) (steps : List Step)
    (hs : ∀ s ∈ steps, s.Fits) :
    ∃ v₀, t.view = .ok v₀ ∧ (v₀.followAll steps).Reports ∧
      ∀ v, v₀.followAll steps = .ok v →
        v.shape.dims = chainDims t.shape.dims steps ∧
        (∀ index, InRange v.shape.dims index →
          linear t.shape.dims (locate t.shape.dims steps index) < t.shape.size ∧
          ∃ x, t.elements.get (linear t.shape.dims (locate t.shape.dims steps index)) = .ok x ∧
            v.get index = .ok x) ∧
        (∃ xs, v.values = .ok xs ∧ (indices v.shape.dims).mapM v.get = .ok xs.toList) ∧
        v.values = v.shape.visit fun index => v.elems.get (position v.strides index) := by
  have h₀ : WellFormed ⟨t.shape, t.shape.strides, t.elements⟩ :=
    wellFormed_of ht.elems ht.filled.size_le
  have hall := followAll_ensures h₀ hs
  refine ⟨_, view_eq ht, hall.reports, fun v hv => ?_⟩
  obtain ⟨hd, hr⟩ := hall.of_ok hv
  refine ⟨hd, fun index hi => ⟨linear_lt (hr.inRange hi), ?_⟩, exists_values hr.wellFormed,
    values_eq_visit hr.wellFormed⟩
  obtain ⟨x, hx⟩ := exists_get hr.wellFormed hi
  refine ⟨x, ?_, hx⟩
  rw [hr.get_eq h₀ hi, View.get_eq h₀ (hr.inRange hi)] at hx
  rwa [← show position t.shape.strides _ = _ from position_rowMajor _ _ (hr.inRange hi).length_eq]

/-- Two rows of three numbered values. -/
def grid : Tensor Binary32 :=
  .owning ⟨[2, 3], by decide, by decide⟩ (.f32 #[⟨0⟩, ⟨1⟩, ⟨2⟩, ⟨3⟩, ⟨4⟩, ⟨5⟩])

theorem grid_wellFormed : grid.WellFormed := ⟨⟨trivial, by decide⟩, rfl⟩

/-- The axes of the grid exchanged and exchanged back, its values in three rows,
and of these the last two, and of these the first. -/
def gridSteps : List Step :=
  [.transpose [1, 0], .transpose [1, 0], .reshape ⟨[3, 2], by decide, by decide⟩, .narrow 1 2,
    .slice 0]

theorem gridSteps_fit : ∀ s ∈ gridSteps, s.Fits := by
  simp only [gridSteps, List.forall_mem_cons, List.not_mem_nil, false_implies, implies_true,
    and_true, Step.Fits, true_and]
  decide

/-- The row that these steps lead to. -/
def gridRow : View Binary32 := ⟨⟨[2], by decide, by decide⟩, [1], .f32 #[⟨2⟩, ⟨3⟩]⟩

theorem chain_reads_grid :
    grid.WellFormed ∧ (∀ s ∈ gridSteps, s.Fits) ∧
      ∃ v₀, grid.view = .ok v₀ ∧ v₀.followAll gridSteps = .ok gridRow ∧
        ∃ x, grid.elements.get 3 = .ok x ∧ gridRow.get [1] = .ok x := by
  obtain ⟨v₀, hv₀, -, h⟩ := chain_reads_owner grid grid_wellFormed gridSteps gridSteps_fit
  obtain rfl : _ = v₀ := Except.ok.inj hv₀
  refine ⟨grid_wellFormed, gridSteps_fit, _, hv₀, rfl, ?_⟩
  obtain ⟨-, hget, -⟩ := h gridRow rfl
  exact (hget [1] ⟨by decide, trivial⟩).2

/-- The number of elements of a shape may be too large for a word although its
strides fit, and reading a view in such a shape aborts. -/
theorem reshape_overflows :
    ∃ v₀, grid.view = .ok v₀ ∧ grid.WellFormed ∧
      v₀.followAll [.reshape ⟨[0x100000000, 0x100000000], by decide, by decide⟩] =
        .error (.abort .overflow) :=
  ⟨_, rfl, grid_wellFormed, rfl⟩

end BlockTensor.View

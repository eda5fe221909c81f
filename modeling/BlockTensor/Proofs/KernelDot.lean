import BlockTensor.Proofs.CodeSum
import BlockTensor.Proofs.DotKernel
import BlockTensor.Proofs.KernelContract

/-!
# Dot products of windows

What a dot product is meant to give is the sum of the products from left to right,
`Elements.inOrder`: the reference loop computes it in any arithmetic
(`Reference.dotElements_inOrder`), the kernels where the order of a sum does not
matter (`Kernel.exists_inOrder`).

`Kernel.dot_computes` says all that a kernel does: for which pairs there is one, what
it computes, and why its integer sums are exact.
-/

namespace BlockTensor

open Outcome Elements

variable {α : Type}

/-- The arithmetic is that of a commutative ring. -/
def Scalar.Exact (α : Type) [scalar : Scalar α] : Prop :=
  ∃ exact : ExactScalar α, exact.toScalar = scalar

theorem Scalar.exact [ExactScalar α] : Scalar.Exact α := ⟨inferInstance, rfl⟩

namespace Elements

section

variable [Scalar α]

theorem toList_run (e : Elements α) (start n : Nat) :
    (e.run start n).toList = (List.range n).map fun t => e.value (start + t) := by
  rw [run, List.range'_eq_map_range, List.map_map]
  rfl

/-- The products of two windows, summed from left to right from zero on. -/
def inOrder (a : Elements α) (aStart : Nat) (b : Elements α) (bStart n : Nat) : α :=
  sumOfProducts (a.run aStart n).toList (b.run bStart n).toList

theorem inOrder_eq_foldl (a b : Elements α) (aStart bStart n : Nat) :
    inOrder a aStart b bStart n = (List.range n).foldl
      (fun acc i => acc + a.value (aStart + i) * b.value (bStart + i)) 0 := by
  rw [inOrder, sumOfProducts, toList_run, toList_run, List.zipWith_map, List.zipWith_self,
    List.foldl_map]

/-- Only the values of a window matter. -/
theorem inOrder_congr {a b b' : Elements α} {aStart bStart bStart' n : Nat}
    (h : ∀ i < n, b.value (bStart + i) = b'.value (bStart' + i)) :
    inOrder a aStart b bStart n = inOrder a aStart b' bStart' n := by
  have hrun : (b.run bStart n).toList = (b'.run bStart' n).toList := by
    rw [toList_run, toList_run]
    exact List.map_congr_left fun i hi => h i (List.mem_range.mp hi)
  rw [inOrder, inOrder, hrun]

end

theorem inOrder_eq_dotSum [ExactScalar α] (a b : Elements α) (aStart bStart n : Nat) :
    inOrder a aStart b bStart n = dotSum a aStart b bStart n := by
  rw [inOrder_eq_foldl, foldl_add_eq_sum, zero_add]
  rfl

end Elements

variable [Scalar α]

/-- The reference loop sums from left to right. -/
theorem Reference.dotElements_inOrder {a b : Elements α} (ha : a.Scaled) (hb : b.Scaled)
    {aStart bStart n : Nat} (hale : aStart + n ≤ a.size) (hble : bStart + n ≤ b.size) :
    dotElements a aStart b bStart n = .ok (inOrder a aStart b bStart n) := by
  rw [inOrder_eq_foldl]
  refine foldlM_of_ok (fun i hi acc => ?_) 0
  have hi := List.mem_range.mp hi
  rw [get_eq_value ha (by omega), ok_bind, get_eq_value hb (by omega)]
  rfl

namespace Kernel

theorem supports_eq_false_iff {a b : DType} :
    supports a b = false ↔ (a, b) ∉ pairs ∧ (b, a) ∉ pairs := by
  cases a <;> cases b <;> decide

section

variable {a b : Elements α} {aStart bStart n : Nat} (ha : a.WellFormed) (hb : b.WellFormed)
  (hale : aStart + n ≤ a.size) (hble : bStart + n ≤ b.size)

include ha hb hale hble

/-- Every loop gives a value, in exact arithmetic that of the reference loop. -/
theorem exists_inOrder : ∃ v, dotSupported a aStart b bStart n = .ok v ∧
    (Scalar.Exact α → v = inOrder a aStart b bStart n) := by
  obtain ⟨v, hv⟩ := exists_dotSupported ha hb hale hble
  refine ⟨v, hv, ?_⟩
  rintro ⟨exact, rfl⟩
  rw [dotSupported_eq ha hb hale hble] at hv
  rw [inOrder_eq_dotSum, Except.ok.inj hv]

theorem exists_dot (hs : supports a.dtype b.dtype = true) :
    ∃ v, dot a aStart b bStart n = .ok (some v) ∧
      (Scalar.Exact α → v = inOrder a aStart b bStart n) := by
  obtain ⟨v, hv, hexact⟩ := exists_inOrder ha hb hale hble
  refine ⟨v, ?_, hexact⟩
  rw [dot, if_pos hs, hv]
  rfl

end

theorem dot_eq_none {a b : Elements α} (hs : supports a.dtype b.dtype = false)
    (aStart bStart n : Nat) : dot a aStart b bStart n = .ok none := by
  rw [dot, hs]
  rfl

/-- A kernel has no result just for the pairs that are listed in neither order. For any
other pair it gives a value, which in exact arithmetic is the sum of the products of
the decoded windows. The integer sums that it converts, block by block, are small
enough for that. -/
theorem dot_computes (a b : Elements α) (aStart bStart n : Nat) (ha : a.WellFormed)
    (hb : b.WellFormed) (hale : aStart + n ≤ a.size) (hble : bStart + n ≤ b.size) :
    (dot a aStart b bStart n = .ok none ↔
      (a.dtype, b.dtype) ∉ pairs ∧ (b.dtype, a.dtype) ∉ pairs) ∧
    ((a.dtype, b.dtype) ∈ pairs ∨ (b.dtype, a.dtype) ∈ pairs →
      ∃ v, dot a aStart b bStart n = .ok (some v) ∧
        (Scalar.Exact α →
          v = sumOfProducts (a.run aStart n).toList (b.run bStart n).toList)) ∧
    ∀ (q r : Elements α) j k x y s t, block q j = .ok (x, s) → block r k = .ok (y, t) →
      SmallCodes x y := by
  have hsome (hs : supports a.dtype b.dtype = true) := exists_dot ha hb hale hble hs
  refine ⟨⟨fun hnone => ?_, fun hpair => ?_⟩, fun hpair => hsome ?_,
    fun q r j k x y s t hx _ => ?_⟩
  · rw [← supports_eq_false_iff]
    by_contra hs
    obtain ⟨v, hv, -⟩ := hsome (Bool.eq_true_of_not_eq_false hs)
    rw [hnone] at hv
    cases hv
  · exact dot_eq_none (supports_eq_false_iff.mpr hpair) aStart bStart n
  · refine Bool.eq_true_of_not_eq_false fun hs => ?_
    obtain ⟨hab, hba⟩ := supports_eq_false_iff.mp hs
    exact hpair.elim hab hba
  · exact smallCodes x y (size_of_block hx)

/-- Two blocks of nibbles, each one, the second under a greater scale. -/
def rescaledNibbles : Elements ℤ := .q4 (.replicate 32 0x99) #[1, 3]

/-- Two blocks of bytes, each minus two, the second under a greater scale. -/
def rescaledBytes : Elements ℤ := .q8 (.replicate 64 (-2)) #[2, 5]

set_option maxRecDepth 4000 in
/-- Nibbles times bytes: a whole block, and the beginning of the next one under other
scales. -/
theorem dot_computes_rescaled :
    rescaledNibbles.WellFormed ∧ rescaledBytes.WellFormed ∧ 0 + 40 ≤ rescaledNibbles.size ∧
      0 + 40 ≤ rescaledBytes.size ∧
      dot rescaledNibbles 0 rescaledBytes 0 40 = .ok (some (-368)) ∧
      ∃ x s y t, block rescaledBytes 1 = .ok (x, s) ∧ block rescaledNibbles 1 = .ok (y, t) ∧
        SmallCodes x y := by
  have ha : rescaledNibbles.WellFormed := ⟨rfl, by decide⟩
  have hb : rescaledBytes.WellFormed := ⟨rfl, by decide⟩
  have hale : 0 + 40 ≤ rescaledNibbles.size := by decide
  have hble : 0 + 40 ≤ rescaledBytes.size := by decide
  obtain ⟨-, hvalue, hsmall⟩ := dot_computes rescaledNibbles rescaledBytes 0 0 40 ha hb hale hble
  obtain ⟨v, hv, hexact⟩ := hvalue (.inr (by decide))
  obtain rfl : v = -368 := (hexact Scalar.exact).trans rfl
  obtain ⟨x, s, hx, -⟩ := exists_block hb.scaled rfl (k := 1) (by decide)
  obtain ⟨y, t, hy, -⟩ := exists_block ha.scaled rfl (k := 1) (by decide)
  exact ⟨ha, hb, hale, hble, hv, x, s, y, t, hx, hy, hsmall _ _ 1 1 x y s t hx hy⟩

end Kernel

end BlockTensor

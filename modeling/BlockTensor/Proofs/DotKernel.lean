import Mathlib.Tactic.Ring
import BlockTensor.Proofs.KernelLoop

/-!
# Dot product kernels in exact arithmetic

Kernels add the same products as the reference loop in other orders, and with
quantized operands multiply codes before scales. In exact arithmetic each of
them computes `dotSum`:

* `dotLanes_eq`, `dotFused_eq`, `dotValues_eq`: values lane by lane, on a machine with a
  fused multiply-add and on one without;
* `dotDecoded_eq`: values run by run;
* `dotQuantized_eq`: values and the decoded blocks of a quantized operand;
* `dotBlocks_eq`: integer products of blocks, under both scales;
* `dotSupported_eq`: whichever of these a pair of encodings leads to.
-/

namespace BlockTensor

open Outcome Finset Elements

variable {α : Type} [ExactScalar α]

/-! ## Lanes -/

namespace Kernel

theorem dotLanes_eq (a b : Array α) :
    dotLanes a b = ∑ i ∈ range a.size, a.getD i 0 * b.getD i 0 := by
  have hlane : ∀ l, lane a b (a.size / lanes) l =
      ∑ k ∈ range (a.size / lanes), product a b (k * lanes + l) := fun l => by
    rw [lane, foldl_add_eq_sum, zero_add]
  rw [dotLanes]
  simp only [Scalar.sum, Scalar.sumFrom]
  rw [List.range'_eq_map_range, List.map_map, List.foldl_map, List.foldl_map, foldl_add_eq_sum,
    foldl_add_eq_sum, neg_zero, zero_add]
  simp only [hlane, sum_lanes, Function.comp_apply]
  rw [← sum_range_add, whole_add_rest]
  rfl

theorem addLanes_eq (v : Nat → α) : addLanes v = ∑ l ∈ range lanes, v l := by
  simp only [addLanes, lanes, sum_range_succ, range_zero, sum_empty, zero_add]
  ring

section

variable {mulAdd : α → α → α → α} (h : ∀ a b c, mulAdd a b c = a * b + c)

include h

theorem fusedLane_append (a b : Array α) (starts starts' : List Nat) (l : Nat) :
    fusedLane mulAdd a b (starts ++ starts') l =
      fusedLane mulAdd a b starts l + fusedLane mulAdd a b starts' l := by
  have hfrom (acc : α) (starts : List Nat) :
      starts.foldl (fun acc i => mulAdd (a.getD (i + l) 0) (b.getD (i + l) 0) acc) acc =
        acc + fusedLane mulAdd a b starts l := by
    induction starts generalizing acc with
    | nil => exact (add_zero acc).symm
    | cons i starts ih =>
      rw [fusedLane, List.foldl_cons, List.foldl_cons, ih, ih, h, h, add_zero, add_comm _ acc,
        add_assoc]
  rw [fusedLane, List.foldl_append, hfrom]
  rfl

/-- A lane sums one product of each register. -/
theorem fusedLane_eq (a b : Array α) (f : Nat → Nat) (n l : Nat) :
    fusedLane mulAdd a b ((List.range n).map f) l = ∑ k ∈ range n, product a b (f k + l) := by
  induction n with
  | zero => rfl
  | succ n ih =>
    rw [List.range_succ, List.map_append, fusedLane_append h, ih, sum_range_succ]
    exact congrArg _ ((h _ _ _).trans (add_zero _))

/-- The registers that are taken two at a time. -/
theorem sum_turns (a b : Array α) (n : Nat) :
    ∑ l ∈ range lanes, (fusedLane mulAdd a b (turns n) l +
        fusedLane mulAdd a b ((turns n).map (· + lanes)) l) =
      ∑ i ∈ range (n / (2 * lanes) * (2 * lanes)), product a b i := by
  simp only [turns, List.map_map, fusedLane_eq h, Function.comp_apply, Nat.add_assoc]
  rw [sum_add_distrib, sum_comm, sum_comm (s := range lanes), ← sum_add_distrib,
    ← sum_blocks (product a b) (2 * lanes)]
  refine sum_congr rfl fun k _ => ?_
  rw [Nat.two_mul, sum_range_add fun l => product a b (k * (lanes + lanes) + l)]

/-- The registers sum every product up to the end of the last one. -/
theorem sum_registers (a b : Array α) (n : Nat) :
    ∑ l ∈ range lanes, (fusedLane mulAdd a b (turns n ++ leftOver n) l +
        fusedLane mulAdd a b ((turns n).map (· + lanes)) l) =
      ∑ i ∈ range (n / lanes * lanes), product a b i := by
  simp only [fusedLane_append h, add_right_comm _ (fusedLane mulAdd a b (leftOver n) _)]
  rw [sum_add_distrib, sum_turns h, leftOver]
  split
  · have hend : n / lanes * lanes = n / (2 * lanes) * (2 * lanes) + lanes := by
      simp only [lanes] at *
      omega
    rw [hend, sum_range_add]
    exact congrArg _ (sum_congr rfl fun l _ => (h _ _ _).trans (add_zero _))
  · have hend : n / lanes * lanes = n / (2 * lanes) * (2 * lanes) := by
      simp only [lanes] at *
      omega
    rw [hend]
    exact (congrArg _ (sum_eq_zero fun _ _ => rfl)).trans (add_zero _)

theorem dotFused_eq (a b : Array α) :
    dotFused mulAdd a b = ∑ i ∈ range (min a.size b.size), product a b i := by
  rw [dotFused]
  generalize min a.size b.size = n
  rw [Scalar.sumFrom, List.range'_eq_map_range, List.map_map, List.foldl_map, foldl_add_eq_sum,
    addLanes_eq, sum_registers h]
  exact (sum_range_add ..).symm.trans (by rw [whole_add_rest])

end

/-- The machine does not matter. -/
theorem dotValues_eq (a b : Array α) :
    dotValues a b = ∑ i ∈ range a.size, a.getD i 0 * b.getD i 0 := by
  rw [dotValues]
  split
  · exact dotLanes_eq a b
  rename_i mulAdd hmulAdd
  rw [dotFused_eq (ExactScalar.mulAdd_eq hmulAdd)]
  refine sum_subset (range_subset_range.mpr (Nat.min_le_left ..)) fun i _ hi => ?_
  -- past the end of the second run the products are zero
  have hle : b.size ≤ i := by
    simp only [mem_range] at *
    omega
  have hzero : b.getD i 0 = 0 := by
    rw [Array.getD_eq_getD_getElem?, Array.getElem?_eq_none hle, Option.getD_none]
  rw [product, hzero, mul_zero]

theorem codeLane_eq (a b : Array Int8) (whole l : Nat) :
    codeLane a b whole l = ∑ k ∈ range whole,
      (a.getD (k * lanes + l) 0).toInt * (b.getD (k * lanes + l) 0).toInt := by
  rw [codeLane, foldl_add_eq_sum, zero_add]

/-- The codes of a block are whole lanes. -/
theorem dotCodes_eq {a b : Array Int8} (ha : a.size = blockSize) :
    dotCodes a b = ∑ i ∈ range blockSize, (a.getD i 0).toInt * (b.getD i 0).toInt := by
  rw [dotCodes, ha, foldl_map_range]
  simp only [codeLane_eq]
  exact sum_lanes (fun i => (a.getD i 0).toInt * (b.getD i 0).toInt) lanes (blockSize / lanes)

theorem dotValues_run (a b : Elements α) (aStart bStart n : Nat) :
    dotValues (a.run aStart n) (b.run bStart n) = dotSum a aStart b bStart n := by
  rw [dotValues_eq, size_run, dotSum]
  refine sum_congr rfl fun i hi => ?_
  have hi := mem_range.mp hi
  rw [getD_run _ _ hi, getD_run _ _ hi]

/-! ## Windows run by run -/

theorem dotDecoded_eq {a b : Elements α} (ha : a.WellFormed) (hb : b.WellFormed)
    {aStart bStart n : Nat} (hale : aStart + n ≤ a.size) (hble : bStart + n ≤ b.size) :
    dotDecoded a aStart b bStart n = .ok (dotSum a aStart b bStart n) := by
  rw [dotDecoded, foldlM_add_eq_sum (f := fun k =>
    dotSum a (aStart + k * run) b (bStart + k * run) (min run (n - k * run))), zero_add]
  · simp only [dotSum, Nat.add_assoc]
    rw [sum_runs (fun i => a.value (aStart + i) * b.value (bStart + i)) (by decide)]
  · intro k hk acc
    have hlt := mul_lt_of_lt_runs (by decide) hk
    dsimp only
    rw [read_eq_run ha (by omega), ok_bind, read_eq_run hb (by omega), ok_bind, dotValues_run]
    rfl

theorem dotQuantized_eq (x : Array α) {q : Elements α} (hq : q.WellFormed) {qStart : Nat}
    (ha : qStart % blockSize = 0) (hle : qStart + x.size ≤ q.size) :
    dotQuantized x q qStart =
      .ok (∑ i ∈ range x.size, x.getD i 0 * q.value (qStart + i)) := by
  rw [dotQuantized, foldlM_add_eq_sum (f := fun k =>
    ∑ i ∈ range (min blockSize (x.size - k * blockSize)),
      x.getD (k * blockSize + i) 0 * q.value (qStart + (k * blockSize + i))), zero_add]
  · exact congrArg Except.ok
      (sum_runs (fun i => x.getD i 0 * q.value (qStart + i)) (by decide) x.size)
  · intro k hk acc
    have hlt : k * blockSize < x.size := mul_lt_of_lt_runs (by decide) hk
    have hsize := Buffer.size_chunk x blockSize k
    dsimp only
    rw [block_mul ha, read_eq_run hq (by omega), ok_bind, dotValues_eq, hsize]
    refine congrArg Except.ok (congrArg (acc + ·) (sum_congr rfl fun i hi => ?_))
    have hi := mem_range.mp hi
    rw [getD_run _ _ hi, Nat.add_assoc, Array.getD_eq_getD_getElem?,
      Buffer.getElem?_chunk x (by omega), ← Array.getD_eq_getD_getElem?]

/-! ## Windows block by block -/

/-- The integer product of two blocks under both scales is the sum of the products
of their values. -/
theorem dotCodes_mul {x y : Array Int8} (hx : x.size = blockSize) (s t : α) :
    Scalar.ofInt (dotCodes x y) * s * t =
      ∑ j ∈ range blockSize,
        Scalar.ofInt (x.getD j 0).toInt * s * (Scalar.ofInt (y.getD j 0).toInt * t) := by
  rw [ofInt_eq_cast, dotCodes_eq hx, Int.cast_sum, sum_mul, sum_mul]
  refine sum_congr rfl fun j _ => ?_
  rw [Int.cast_mul, ofInt_eq_cast, ofInt_eq_cast]
  ring

section

variable {data : Array Int8} {scales : Array α} {b : Elements α} {aStart bStart n : Nat}

/-- The first `n` blocks of both windows. -/
theorem foldlM_blocks_eq (ha : (q8 data scales).Scaled) (hb : b.Scaled) (hd : b.dtype.isQuantized)
    (haa : aStart % blockSize = 0) (hba : bStart % blockSize = 0)
    (hale : aStart + n * blockSize ≤ data.size) (hble : bStart + n * blockSize ≤ b.size) :
    (List.range n).foldlM (fun acc k => do
      let x ← block (.q8 data scales) (aStart / blockSize + k)
      let y ← block b (bStart / blockSize + k)
      return acc + Scalar.ofInt (dotCodes x.1 y.1) * x.2 * y.2) 0 =
      (.ok (dotSum (q8 data scales) aStart b bStart (n * blockSize)) : Outcome α) := by
  rw [foldlM_add_eq_sum (f := fun k => dotSum (q8 data scales) (aStart + k * blockSize) b
    (bStart + k * blockSize) blockSize), zero_add]
  · simp only [dotSum, Nat.add_assoc]
    rw [sum_blocks fun i => (q8 data scales).value (aStart + i) * b.value (bStart + i)]
  · intro k hk acc
    obtain ⟨x, s, hx, hxs, hxv⟩ := exists_block ha rfl (block_succ_mul_le haa hk hale)
    obtain ⟨y, t, hy, -, hyv⟩ := exists_block hb hd (block_succ_mul_le hba hk hble)
    rw [hx, ok_bind, hy, ok_bind]
    refine congrArg Except.ok (congrArg (acc + ·) ?_)
    rw [dotCodes_mul hxs]
    refine sum_congr rfl fun j hj => ?_
    rw [← hxv j (mem_range.mp hj), ← hyv j (mem_range.mp hj), block_mul haa, block_mul hba]

/-- The elements after the last whole block. -/
theorem foldlM_rest_eq (ha : (q8 data scales).Scaled) (hb : b.Scaled) {first : Nat} (head : α)
    (hale : aStart + first + n ≤ data.size) (hble : bStart + first + n ≤ b.size) :
    (List.range' first n).foldlM (fun acc i => do
      let x ← Q8.value data scales (aStart + i)
      let y ← b.get (bStart + i)
      return acc + x * y) head =
      (.ok (head + dotSum (q8 data scales) (aStart + first) b (bStart + first) n) : Outcome α) := by
  rw [List.range'_eq_map_range, List.foldlM_map]
  refine foldlM_add_eq_sum head fun i hi acc => ?_
  have hx : Q8.value data scales (aStart + first + i) = .ok _ :=
    get_eq_value ha (show aStart + first + i < data.size by omega)
  rw [← Nat.add_assoc, ← Nat.add_assoc, hx, ok_bind, get_eq_value hb (by omega)]
  rfl

theorem dotBlocks_eq (ha : (q8 data scales).WellFormed) (hb : b.WellFormed)
    (hd : b.dtype.isQuantized) (haa : aStart % blockSize = 0) (hba : bStart % blockSize = 0)
    (hale : aStart + n ≤ data.size) (hble : bStart + n ≤ b.size) :
    dotBlocks data scales aStart b bStart n = .ok (dotSum (q8 data scales) aStart b bStart n) := by
  have hfull : n / blockSize * blockSize ≤ n := Nat.div_mul_le_self ..
  rw [dotBlocks, foldlM_blocks_eq ha.scaled hb.scaled hd haa hba (by omega) (by omega), ok_bind,
    foldlM_rest_eq ha.scaled hb.scaled _ (by omega) (by omega), dotSum_add,
    Nat.add_sub_cancel' hfull]

end

/-! ## Every pair of encodings -/

theorem dotQuantized_run (x : Elements α) (start n : Nat) {q : Elements α} (hq : q.WellFormed)
    {qStart : Nat} (ha : qStart % blockSize = 0) (hle : qStart + n ≤ q.size) :
    dotQuantized (x.run start n) q qStart = .ok (dotSum x start q qStart n) := by
  rw [dotQuantized_eq _ hq ha (by rwa [size_run]), size_run]
  refine congrArg Except.ok (sum_congr rfl fun i hi => ?_)
  rw [getD_run _ _ (mem_range.mp hi)]

/-- Whichever kernel a pair and an alignment lead to, it computes the sum. -/
theorem dotSupported_eq {a b : Elements α} (ha : a.WellFormed) (hb : b.WellFormed)
    {aStart bStart n : Nat} (hale : aStart + n ≤ a.size) (hble : bStart + n ≤ b.size) :
    dotSupported a aStart b bStart n = .ok (dotSum a aStart b bStart n) := by
  have hloop := dotSupported_loop ha hb hale hble
  generalize dotSupported a aStart b bStart n = out at hloop ⊢
  cases hloop with
  | values => rw [dotValues_run]
  | scaled hq hba => exact dotQuantized_run a aStart n hb hba hble
  | scaledFirst hq haa => rw [dotQuantized_run b bStart n ha haa hale, dotSum_comm]
  | blocks h hq haa hba =>
    subst h
    exact dotBlocks_eq ha hb hq haa hba hale hble
  | blocksFirst h hq haa hba =>
    subst h
    rw [dotBlocks_eq hb ha hq hba haa hble hale, dotSum_comm]
  | decoded => exact dotDecoded_eq ha hb hale hble

/-- A pair without a kernel is none, any other the sum. -/
theorem dot_eq {a b : Elements α} (ha : a.WellFormed) (hb : b.WellFormed) {aStart bStart n : Nat}
    (hale : aStart + n ≤ a.size) (hble : bStart + n ≤ b.size)
    (hs : supports a.dtype b.dtype = true) :
    dot a aStart b bStart n = .ok (some (dotSum a aStart b bStart n)) := by
  rw [dot, if_pos hs, dotSupported_eq ha hb hale hble]
  rfl

end Kernel

end BlockTensor

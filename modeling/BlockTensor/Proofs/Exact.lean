import Mathlib.Algebra.BigOperators.Intervals
import Mathlib.Algebra.BigOperators.Ring.Finset
import Mathlib.Algebra.Ring.Int.Defs
import Mathlib.Tactic.Ring
import BlockTensor.Backend.Reference
import BlockTensor.Proofs.Cell

/-!
# Dot products in exact arithmetic

An `ExactScalar` has the laws of a commutative ring, so sums of its values do not
depend on their order; the codecs of the 16-bit encodings may be anything. The
dot product of two windows is `dotSum`, the sum over a range of indices.

* `sum_lanes`, `sum_runs`: a sum by lanes and a sum run by run are the sum.
* `Elements.read_eq_run`: what is read is the values of a range, `Elements.run`.
* `Reference.dotElements_eq`: the reference loop computes `dotSum`.
-/

namespace BlockTensor

open Outcome Finset

/-- Full-precision values that add and multiply without rounding, at once too where the
machine can. -/
class ExactScalar (α : Type) extends CommRing α, Scalar α where
  ofInt_eq (n : Int) : (Scalar.ofInt n : α) = (n : α)
  mulAdd_eq {mulAdd : α → α → α → α} (h : Scalar.mulAdd? = some mulAdd) (a b c : α) :
    mulAdd a b c = a * b + c

/-- Integers, which are multiplied and added at once. The two 16-bit encodings of one are its
low bits. -/
instance : ExactScalar ℤ where
  mulAdd? := some fun a b c => a * b + c
  div a b := a / b
  lt a b := a < b
  isZero a := a = 0
  abs a := a.natAbs
  ofInt n := n
  nearest a := a
  floor a := a
  ofBits u := u.toNat
  half u := u.toNat
  toHalf a := UInt16.ofInt a
  brain u := u.toNat
  toBrain a := UInt16.ofInt a
  ofInt_eq _ := rfl
  mulAdd_eq h a b c := by
    obtain rfl := Option.some.inj h
    rfl

theorem separable_of_exact {α : Type} [ExactScalar α] : Scalar.Separable α :=
  fun _ h => ExactScalar.mulAdd_eq h

theorem ofInt_eq_cast {α : Type} [ExactScalar α] (n : Int) : (Scalar.ofInt n : α) = (n : α) :=
  ExactScalar.ofInt_eq n

/-! ## Sums in loops -/

section

variable {M : Type} [AddCommMonoid M]

theorem foldl_add_eq_sum (f : Nat → M) (a : M) (n : Nat) :
    (List.range n).foldl (fun acc k => acc + f k) a = a + ∑ k ∈ range n, f k := by
  induction n with
  | zero => simp
  | succ n ih => rw [List.range_succ, List.foldl_append, ih, sum_range_succ, ← add_assoc]; rfl

theorem foldl_map_range (f : Nat → M) (n : Nat) :
    ((List.range n).map f).foldl (· + ·) 0 = ∑ k ∈ range n, f k := by
  rw [List.foldl_map, foldl_add_eq_sum, zero_add]

/-- A loop that may fail, and does not. -/
theorem foldlM_add_eq_sum {u : M → Nat → Outcome M} {f : Nat → M} (a : M) {n : Nat}
    (h : ∀ k < n, ∀ acc, u acc k = .ok (acc + f k)) :
    (List.range n).foldlM u a = .ok (a + ∑ k ∈ range n, f k) := by
  rw [foldlM_of_ok (g := fun acc k => acc + f k) fun k hk => h k (List.mem_range.mp hk),
    foldl_add_eq_sum]

theorem sum_blocks (f : Nat → M) (m n : Nat) :
    ∑ k ∈ range n, ∑ l ∈ range m, f (k * m + l) = ∑ i ∈ range (n * m), f i := by
  induction n with
  | zero => simp
  | succ n ih => rw [sum_range_succ, ih, Nat.succ_mul, sum_range_add]

/-- The entries `l`, `m + l`, `2 * m + l`, … of each lane `l`. -/
theorem sum_lanes (f : Nat → M) (m n : Nat) :
    ∑ l ∈ range m, ∑ k ∈ range n, f (k * m + l) = ∑ i ∈ range (n * m), f i := by
  rw [sum_comm, sum_blocks]

theorem sum_first_runs (f : Nat → M) (m n c : Nat) :
    ∑ k ∈ range c, ∑ i ∈ range (min m (n - k * m)), f (k * m + i) =
      ∑ i ∈ range (min (c * m) n), f i := by
  induction c with
  | zero => simp
  | succ c ih =>
    rw [sum_range_succ, ih, Nat.succ_mul]
    rcases Nat.le_total n (c * m) with h | h
    · rw [Nat.sub_eq_zero_of_le h, Nat.min_zero, sum_range_zero, add_zero, Nat.min_eq_right h,
        Nat.min_eq_right (by omega)]
    · rw [Nat.min_eq_left h, ← sum_range_add]
      congr 2
      omega

/-- Runs of `m` entries, the last one short. -/
theorem sum_runs (f : Nat → M) {m : Nat} (hm : 0 < m) (n : Nat) :
    ∑ k ∈ range ((n + (m - 1)) / m), ∑ i ∈ range (min m (n - k * m)), f (k * m + i) =
      ∑ i ∈ range n, f i := by
  have h : n ≤ (n + (m - 1)) / m * m := by
    have hdiv := Nat.div_add_mod (n + (m - 1)) m
    have hmod := Nat.mod_lt (n + (m - 1)) hm
    rw [Nat.mul_comm] at hdiv
    omega
  rw [sum_first_runs, Nat.min_eq_right h]

end

/-! ## Values -/

namespace Elements

variable {α : Type}

section

variable [Scalar α]

/-- The values of a range of elements. -/
def run (e : Elements α) (start n : Nat) : Array α := ((List.range' start n).map e.value).toArray

@[simp] theorem size_run (e : Elements α) (start n : Nat) : (e.run start n).size = n := by
  simp [run]

theorem getD_run (e : Elements α) (start : Nat) {n i : Nat} (h : i < n) :
    (e.run start n).getD i 0 = e.value (start + i) := by
  simp [run, Array.getD_eq_getD_getElem?, h]

theorem read_eq_run {e : Elements α} (h : e.WellFormed) {start n : Nat}
    (hle : start + n ≤ e.size) : e.read start n = .ok (e.run start n) := by
  rw [read_eq_generate e hle h.fits]
  exact Buffer.generate_of_ok fun i hi => get_eq_value h.scaled (by omega)

/-- What is read is the values of the range. -/
theorem run_of_read {e : Elements α} {start n : Nat} {values : Array α}
    (h : e.read start n = .ok values) : values = e.run start n := by
  obtain ⟨hsize, hget⟩ := Buffer.of_generate (generate_of_read h)
  refine Array.ext (by rw [hsize, size_run]) fun i hi _ => ?_
  simp only [run, List.getElem_toArray, List.getElem_map, List.getElem_range', Nat.one_mul]
  exact (value_of_get (hget i hi)).symm

/-- Values are cut out of a full-precision buffer as they are. -/
theorem cut_eq_run {data : Array α} (h : (f32 data).WellFormed) {start n : Nat}
    (hle : start + n ≤ data.size) :
    Buffer.cut data start (start + n) = .ok ((f32 data).run start n) := by
  rw [← read_eq_run h hle, read, Word.add_of_lt (Nat.lt_of_le_of_lt hle h.fits)]
  rfl

end

variable [ExactScalar α]

/-- The dot product of two windows. -/
def dotSum (a : Elements α) (aStart : Nat) (b : Elements α) (bStart n : Nat) : α :=
  ∑ i ∈ range n, a.value (aStart + i) * b.value (bStart + i)

theorem dotSum_comm (a b : Elements α) (aStart bStart n : Nat) :
    dotSum a aStart b bStart n = dotSum b bStart a aStart n :=
  sum_congr rfl fun _ _ => mul_comm _ _

theorem dotSum_add (a b : Elements α) (aStart bStart m n : Nat) :
    dotSum a aStart b bStart m + dotSum a (aStart + m) b (bStart + m) n =
      dotSum a aStart b bStart (m + n) := by
  simp only [dotSum, Nat.add_assoc]
  rw [sum_range_add fun i => a.value (aStart + i) * b.value (bStart + i)]

end Elements

variable {α : Type} [ExactScalar α]

open Elements

theorem Reference.dotElements_eq {a b : Elements α} (ha : a.Scaled) (hb : b.Scaled)
    {aStart bStart n : Nat} (hale : aStart + n ≤ a.size) (hble : bStart + n ≤ b.size) :
    dotElements a aStart b bStart n = .ok (dotSum a aStart b bStart n) := by
  rw [dotElements, foldlM_add_eq_sum (f := fun i => a.value (aStart + i) * b.value (bStart + i)),
    zero_add]
  · rfl
  · intro i hi acc
    rw [get_eq_value ha (by omega), ok_bind, get_eq_value hb (by omega), ok_bind]
    rfl

end BlockTensor

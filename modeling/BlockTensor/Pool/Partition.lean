/-!
# Partitions of a range

A range is cut into tasks of one length, as many as the parallelism allows.

* `partition length parallelism` has as many tasks as the greatest divisor of
  `length` from 2 up to the parallelism, and one task per element where there is
  no such divisor. `tasks_mul_chunk` says that the tasks cover the range.
-/

namespace BlockTensor

/-- A range cut into `tasks` tasks of `chunk` elements. -/
structure Partition where
  tasks : Nat
  chunk : Nat
  deriving DecidableEq

/-- The greatest divisor of `n` from 2 up to `bound`. -/
def greatestDivisor? (n : Nat) : (bound : Nat) → Option Nat
  | 0 | 1 => none
  | b + 2 => if n % (b + 2) = 0 then some (b + 2) else greatestDivisor? n (b + 1)

/-- The tasks into which a range is cut. -/
def partition (length parallelism : Nat) : Partition :=
  if length = 0 then ⟨0, 1⟩
  else match greatestDivisor? length (min parallelism length) with
    | some s => ⟨s, length / s⟩
    | none => ⟨length, 1⟩

theorem greatestDivisor?_eq_some {n bound s : Nat} (h : greatestDivisor? n bound = some s) :
    2 ≤ s ∧ s ≤ bound ∧ n % s = 0 := by
  induction bound using greatestDivisor?.induct n with
  | case1 => simp [greatestDivisor?] at h
  | case2 => simp [greatestDivisor?] at h
  | case3 b hb =>
    rw [greatestDivisor?, if_pos hb] at h
    cases h
    exact ⟨by omega, by omega, hb⟩
  | case4 b hb ih =>
    rw [greatestDivisor?, if_neg hb] at h
    obtain ⟨h2, hle, hm⟩ := ih h
    exact ⟨h2, by omega, hm⟩

/-- The tasks of a partition cover the range. -/
theorem tasks_mul_chunk (length parallelism : Nat) :
    (partition length parallelism).tasks * (partition length parallelism).chunk = length := by
  unfold partition
  split
  · simp_all
  · split
    · rename_i s h
      exact Nat.mul_div_cancel' (Nat.dvd_of_mod_eq_zero (greatestDivisor?_eq_some h).2.2)
    · simp

end BlockTensor

/-!
# Half-precision patterns

IEEE binary16 patterns for binary32 values. The way back is `Binary32.ofHalf`.

* `Binary16.narrow` rounds to nearest, ties to even; what rounds past the
  largest half becomes an infinity, and a NaN keeps its sign and the upper bits
  of its payload and becomes quiet.
* `roundEven n k` is `n / 2 ^ k` rounded to nearest, ties to even.
-/

namespace BlockTensor

/-- `n / 2 ^ k` to the nearest integer, ties to the even one. -/
def roundEven (n k : Nat) : Nat :=
  let unit := 1 <<< k
  let q := n / unit
  let r := 2 * (n % unit)
  if r > unit ∨ (r = unit ∧ q % 2 = 1) then q + 1 else q

/-- A multiple of `2 ^ k` rounds to its quotient. -/
theorem roundEven_shiftLeft (q k : Nat) : roundEven (q <<< k) k = q := by
  have h : 0 < 2 ^ k := Nat.two_pow_pos k
  simp only [roundEven, Nat.shiftLeft_eq, Nat.one_mul, Nat.mul_div_cancel _ h,
    Nat.mul_mod_left, Nat.mul_zero]
  rw [if_neg (by omega)]

namespace Binary16

/-- The half magnitude nearest to the binary32 magnitude `n`. -/
def narrowMagnitude (n : Nat) : Nat :=
  let e := n >>> 23
  let m := n % 0x800000
  if e = 255 then
    if m = 0 then 0x7c00 else 0x7e00 ||| (m >>> 13)
  else if 113 ≤ e then
    min 0x7c00 (roundEven (n - (112 <<< 23)) 13)
  else if 101 ≤ e then
    roundEven (0x800000 + m) (126 - e)
  else 0

/-- The half pattern nearest to a binary32 pattern. -/
def narrow (f : UInt32) : UInt16 :=
  let n := f.toNat
  UInt16.ofNat (((n >>> 31) <<< 15) + narrowMagnitude (n % 0x80000000))

example : narrow 0x477fefff = 0x7bff ∧ narrow 0x477ff000 = 0x7c00 ∧ narrow 0x33000000 = 0 := by
  decide +kernel

end Binary16

end BlockTensor

import Mathlib.Algebra.Order.Ring.Abs
import BlockTensor.Proofs.KernelLoop
import BlockTensor.Proofs.SingleInteger

/-!
# Sums of codes in machine words

A product of two signed bytes is at most `2 ^ 14`, so four of them in a lane and the
eight lanes of a block stay far below `2 ^ 24`: no 32-bit accumulator overflows, and
the sum is a binary32 value.

* `wordLane`, `dotWords`: the sums of `codeLane` and `dotCodes` in 32-bit words.
* `toInt_foldl_add`: words that are added without overflow are added as integers.
* `SmallCodes`, `smallCodes`: what is so known of two blocks.
-/

namespace BlockTensor.Kernel

open Outcome

/-! ## Bounded sums -/

theorem abs_foldl_add_le {f : Nat → Int} {c : Int} (hf : ∀ k, |f k| ≤ c) (n : Nat) :
    |(List.range n).foldl (fun acc k => acc + f k) 0| ≤ n * c := by
  induction n with
  | zero => simp
  | succ n ih =>
    rw [List.range_succ, List.foldl_append, Nat.cast_succ, Int.add_mul, Int.one_mul]
    exact (abs_add_le _ _).trans (add_le_add ih (hf n))

/-- Words whose sums stay in range are added as integers. -/
theorem toInt_foldl_add {f : Nat → Int32} {c : Int} (hf : ∀ k, |(f k).toInt| ≤ c) {n : Nat}
    (hn : n * c < 2 ^ 31) :
    ((List.range n).foldl (fun acc k => acc + f k) 0).toInt =
      (List.range n).foldl (fun acc k => acc + (f k).toInt) 0 := by
  induction n with
  | zero => rfl
  | succ n ih =>
    have hc : 0 ≤ c := (abs_nonneg _).trans (hf 0)
    rw [Nat.cast_succ, Int.add_mul, Int.one_mul] at hn
    have hsum := abs_foldl_add_le (f := fun k => (f k).toInt) hf n
    have hlast := hf n
    rw [List.range_succ, List.foldl_append, List.foldl_append, List.foldl_cons, List.foldl_nil,
      List.foldl_cons, List.foldl_nil, Int32.toInt_add, ih (by omega)]
    rw [abs_le] at hsum hlast
    exact Int.bmod_eq_of_le (by omega) (by omega)

/-! ## Lanes -/

/-- The sum of a lane in a 32-bit word. -/
def wordLane (a b : Array Int8) (whole l : Nat) : Int32 :=
  (List.range whole).foldl
    (fun acc k => acc + (a.getD (k * lanes + l) 0).toInt32 * (b.getD (k * lanes + l) 0).toInt32) 0

/-- The dot product of two blocks of codes in 32-bit words. -/
def dotWords (a b : Array Int8) : Int32 :=
  ((List.range lanes).map (wordLane a b (a.size / lanes))).foldl (· + ·) 0

theorem abs_product_le (x y : Int8) : |x.toInt * y.toInt| ≤ 2 ^ 14 := by
  have hx : |x.toInt| ≤ 2 ^ 7 := abs_le.mpr ⟨x.le_toInt, x.toInt_lt.le⟩
  have hy : |y.toInt| ≤ 2 ^ 7 := abs_le.mpr ⟨y.le_toInt, y.toInt_lt.le⟩
  rw [abs_mul]
  exact mul_le_mul hx hy (abs_nonneg _) (by decide)

/-- A product of two signed bytes fits in a word. -/
theorem toInt_product (x y : Int8) : (x.toInt32 * y.toInt32).toInt = x.toInt * y.toInt := by
  have h := abs_le.mp (abs_product_le x y)
  rw [Int32.toInt_mul, Int8.toInt_toInt32, Int8.toInt_toInt32]
  exact Int.bmod_eq_of_le (by omega) (by omega)

section

variable (x y : Array Int8)

theorem abs_codeLane_le (whole l : Nat) : |codeLane x y whole l| ≤ whole * 2 ^ 14 :=
  abs_foldl_add_le (fun _ => abs_product_le _ _) whole

/-- A lane that is not too long does not overflow. -/
theorem toInt_wordLane {whole : Nat} (h : whole ≤ 4) (l : Nat) :
    (wordLane x y whole l).toInt = codeLane x y whole l := by
  have hlane := toInt_foldl_add (n := whole) (c := 2 ^ 14)
    (f := fun k => (x.getD (k * lanes + l) 0).toInt32 * (y.getD (k * lanes + l) 0).toInt32)
    (fun k => by rw [toInt_product]; exact abs_product_le _ _) (by omega)
  simp only [toInt_product] at hlane
  exact hlane

/-- The sum of the first `m` lanes. -/
def lanesSum (m : Nat) : Int :=
  ((List.range m).map (codeLane x y (x.size / lanes))).foldl (· + ·) 0

theorem abs_lanesSum_le (h : x.size = blockSize) (m : Nat) :
    |lanesSum x y m| ≤ (m : Int) * 2 ^ 16 := by
  have hwhole : x.size / lanes = 4 := by rw [h]; rfl
  rw [lanesSum, hwhole, List.foldl_map]
  exact abs_foldl_add_le (abs_codeLane_le x y 4) m

/-- The lanes of a block do not overflow either. -/
theorem toInt_dotWords (h : x.size = blockSize) : (dotWords x y).toInt = dotCodes x y := by
  have hwhole : x.size / lanes = 4 := by rw [h]; rfl
  have hlanes := toInt_foldl_add (n := lanes) (c := 2 ^ 16) (f := wordLane x y 4)
    (fun l => by rw [toInt_wordLane x y (Nat.le_refl 4)]; exact abs_codeLane_le x y 4 l) (by decide)
  simp only [toInt_wordLane x y (Nat.le_refl 4)] at hlanes
  rw [dotWords, dotCodes, hwhole, List.foldl_map, List.foldl_map, hlanes]

/-! ## Blocks -/

/-- The integer sums of two blocks of codes: no accumulator reaches `2 ^ 24`, after any
number of steps of a lane and of any number of lanes, so 32-bit words hold them all,
and the dot product is a binary32 value. -/
structure SmallCodes : Prop where
  lane : ∀ l, ∀ m ≤ x.size / lanes, |codeLane x y m l| < 2 ^ 24
  total : ∀ m ≤ lanes, |lanesSum x y m| < 2 ^ 24
  word : (dotWords x y).toInt = dotCodes x y
  single : (Scalar.ofInt (dotCodes x y) : Binary32).value? = some (dotCodes x y : ℚ)

theorem smallCodes (h : x.size = blockSize) : SmallCodes x y := by
  have hwhole : x.size / lanes = 4 := by rw [h]; rfl
  have htotal : ∀ m ≤ lanes, |lanesSum x y m| < 2 ^ 24 := by
    intro m hm
    have hle := abs_lanesSum_le x y h m
    have hm : (m : Int) ≤ 8 := Int.ofNat_le.mpr hm
    omega
  refine ⟨fun l m hm => ?_, htotal, toInt_dotWords x y h, Binary32.value?_ofInt ?_⟩
  · have hle := abs_codeLane_le x y m l
    omega
  · have hdot : |dotCodes x y| < 2 ^ 24 := htotal lanes (Nat.le_refl _)
    rw [Int.abs_eq_natAbs] at hdot
    omega

end

/-- A block has 32 codes. -/
theorem size_of_block {α : Type} [Scalar α] {q : Elements α} {k : Nat} {x : Array Int8} {s : α}
    (h : block q k = .ok (x, s)) : x.size = blockSize := by
  cases q with
  | f32 data | f16 data | bf16 data => exact absurd h (stop_ne_ok _ _)
  | q8 data scales =>
    obtain ⟨codes, hcodes, h⟩ := bind_eq_ok.mp h
    obtain ⟨scale, -, h⟩ := bind_eq_ok.mp h
    obtain ⟨rfl, -⟩ := Prod.mk.inj (Except.ok.inj h)
    obtain ⟨hle, hsize, rfl⟩ := Buffer.cut_eq_ok.mp hcodes
    rw [Array.size_extract, Nat.min_eq_left hsize, ← Nat.sub_mul, Nat.add_sub_cancel_left,
      Nat.one_mul]
  | q4 data scales =>
    obtain ⟨bytes, -, h⟩ := bind_eq_ok.mp h
    obtain ⟨scale, -, h⟩ := bind_eq_ok.mp h
    obtain ⟨rfl, -⟩ := Prod.mk.inj (Except.ok.inj h)
    exact Array.size_ofFn

end BlockTensor.Kernel

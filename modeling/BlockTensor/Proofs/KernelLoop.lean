import BlockTensor.Backend.Vector.Kernel
import BlockTensor.Proofs.Exact

/-!
# The loops of the kernels

A dot product is computed by one of four loops, two of which take their operands in
either order; the encodings and the alignment of the windows select it (`Kernel.Loop`,
`dotSupported_loop`). Whatever the arithmetic, each of them reads inside its windows and
gives a value (`exists_dotSupported`).

* `exists_block`: the codes and the scale of a block, which its values are the
  products of.
-/

namespace BlockTensor

open Outcome Elements

variable {α : Type} [Scalar α]

namespace Kernel

/-! ## Runs and blocks -/

/-- A run that is counted starts inside the range. -/
theorem mul_lt_of_lt_runs {k m n : Nat} (hm : 0 < m) (h : k < (n + (m - 1)) / m) : k * m < n := by
  have h := (Nat.le_div_iff_mul_le hm).mp h
  rw [Nat.succ_mul] at h
  omega

theorem block_mul {start : Nat} (h : start % blockSize = 0) (k : Nat) :
    (start / blockSize + k) * blockSize = start + k * blockSize := by
  rw [Nat.add_mul, Nat.div_mul_cancel (Nat.dvd_of_mod_eq_zero h)]

/-- A whole block of a window lies inside the elements that the window does. -/
theorem block_succ_mul_le {start k n size : Nat} (h : start % blockSize = 0) (hk : k < n)
    (hle : start + n * blockSize ≤ size) : (start / blockSize + k + 1) * blockSize ≤ size := by
  have hlast : k * blockSize + blockSize ≤ n * blockSize := by
    rw [← Nat.succ_mul]
    exact Nat.mul_le_mul_right _ hk
  rw [Nat.succ_mul, block_mul h]
  omega

/-- A nibble read as a signed byte. -/
theorem toInt_sub_eight {n : UInt8} (h : n < 16) : (n.toInt8 - 8).toInt = Q4.signed n := by
  have hall : ∀ k : Fin 16, ((UInt8.ofNat k).toInt8 - 8).toInt = Q4.signed (UInt8.ofNat k) := by
    decide
  have hn := hall ⟨n.toNat, h⟩
  rwa [UInt8.ofNat_toNat] at hn

theorem nibble_lt (i : Nat) (byte : UInt8) : Q4.nibble i byte < 16 := by
  rw [UInt8.lt_iff_toNat_lt, Q4.nibble]
  split
  · rw [UInt8.toNat_and]
    exact Nat.and_lt_two_pow _ (by decide : (15 : Nat) < 2 ^ 4)
  · have h := byte.toNat_lt
    rw [UInt8.toNat_shiftRight, show (4 : UInt8).toNat % 8 = 4 from rfl, Nat.shiftRight_eq_div_pow]
    exact Nat.div_lt_of_lt_mul h

theorem toInt_unpack (bytes : Array UInt8) {j : Nat} (h : j < blockSize) :
    ((unpack bytes).getD j 0).toInt =
      Q4.signed (Q4.nibble j (bytes.getD (j % q4BlockBytes) 0)) := by
  rw [← toInt_sub_eight (nibble_lt _ _), unpack, Array.getD_eq_getD_getElem?, Array.getElem?_ofFn,
    dif_pos h, Option.getD_some]
  have hslot : Q4.slot j = j := Nat.mod_eq_of_lt h
  simp only [Q4.nibble, Q4.isLow, hslot, decide_eq_true_eq]
  by_cases hl : j < q4BlockBytes
  · rw [if_pos hl, if_pos hl, Nat.mod_eq_of_lt hl]
    rfl
  · have hmod : j % q4BlockBytes = j - q4BlockBytes := by
      simp only [blockSize, q4BlockBytes] at *
      omega
    rw [if_neg hl, if_neg hl, hmod]

/-- The codes and the scale of a block, which its values are the products of. -/
theorem exists_block {q : Elements α} (hq : q.Scaled) (hd : q.dtype.isQuantized) {k : Nat}
    (hk : (k + 1) * blockSize ≤ q.size) :
    ∃ codes s, block q k = .ok (codes, s) ∧ codes.size = blockSize ∧
      ∀ j < blockSize,
        q.value (k * blockSize + j) = Scalar.ofInt (codes.getD j 0).toInt * s := by
  have hdiv : ∀ j < blockSize, (k * blockSize + j) / blockSize = k := fun _ => div_of_lt_block k
  rw [Nat.succ_mul] at hk
  cases q with
  | f32 data | f16 data | bf16 data => cases hd
  | q8 data scales =>
    have hs := size_eq_of_scaled_q8 hq
    have hsize : k * blockSize + blockSize ≤ data.size := hk
    have hscale : k < scales.size := by
      simp only [blockSize] at *
      omega
    refine ⟨data.extract (k * blockSize) (k * blockSize + blockSize), scales[k], ?_, ?_, ?_⟩
    · rw [block, Nat.succ_mul, Buffer.cut_of_le (Nat.le_add_right ..) hsize, ok_bind,
        Buffer.read_of_lt hscale]
      rfl
    · exact Buffer.size_extract_of_le hsize
    · intro j hj
      have hlt : k * blockSize + j < data.size := by omega
      rw [value, cell?, hdiv j hj, Array.getElem?_eq_getElem hlt, Array.getElem?_eq_getElem hscale,
        Array.getD_eq_getD_getElem?, Buffer.getElem?_extract_of_lt hsize (by omega),
        Array.getElem?_eq_getElem hlt]
      rfl
  | q4 data scales =>
    have hs := size_eq_of_scaled_q4 hq
    have hscale : k < scales.size := by
      simp only [size, blockSize, q4BlockBytes] at *
      omega
    have hsize : k * q4BlockBytes + q4BlockBytes ≤ data.size := by
      rw [hs, ← Nat.succ_mul]
      exact Nat.mul_le_mul_right _ hscale
    refine ⟨unpack (data.extract (k * q4BlockBytes) (k * q4BlockBytes + q4BlockBytes)), scales[k],
      ?_, by simp [unpack], ?_⟩
    · rw [block, Nat.succ_mul, Buffer.cut_of_le (Nat.le_add_right ..) hsize, ok_bind,
        Buffer.read_of_lt hscale]
      rfl
    · intro j hj
      have hmod : k * blockSize % blockSize = 0 := Nat.mul_mod_left ..
      have hbyte : Q4.byteOf (k * blockSize + j) = k * q4BlockBytes + j % q4BlockBytes := by
        rw [byteOf_add hmod, Nat.mul_div_cancel _ (by decide : 0 < blockSize), byteOf_of_lt hj]
      have hj' : j % q4BlockBytes < q4BlockBytes := Nat.mod_lt _ (by decide)
      have hlt : k * q4BlockBytes + j % q4BlockBytes < data.size := by omega
      simp only [value, cell?, hdiv j hj, hbyte, nibble_add hmod]
      rw [Array.getElem?_eq_getElem hlt, Array.getElem?_eq_getElem hscale, toInt_unpack _ hj,
        Array.getD_eq_getD_getElem?, Buffer.getElem?_extract_of_lt hsize (by omega),
        Array.getElem?_eq_getElem hlt]
      rfl

/-! ## The choice of a loop -/

/-- The loops of a dot product. A quantized window that starts on a block is met block
by block, by values or by signed bytes; those are the first operand of their loop,
whichever operand they are of the product. -/
inductive Loop (a : Elements α) (aStart : Nat) (b : Elements α) (bStart n : Nat) : Outcome α → Prop
  | values : Loop a aStart b bStart n (.ok (dotValues (a.run aStart n) (b.run bStart n)))
  | scaled (hq : b.dtype.isQuantized) (hb : bStart % blockSize = 0) :
    Loop a aStart b bStart n (dotQuantized (a.run aStart n) b bStart)
  | scaledFirst (hq : a.dtype.isQuantized) (ha : aStart % blockSize = 0) :
    Loop a aStart b bStart n (dotQuantized (b.run bStart n) a aStart)
  | blocks {data : Array Int8} {scales : Array α} (h : a = .q8 data scales)
      (hq : b.dtype.isQuantized) (ha : aStart % blockSize = 0) (hb : bStart % blockSize = 0) :
    Loop a aStart b bStart n (dotBlocks data scales aStart b bStart n)
  | blocksFirst {data : Array Int8} {scales : Array α} (h : b = .q8 data scales)
      (hq : a.dtype.isQuantized) (ha : aStart % blockSize = 0) (hb : bStart % blockSize = 0) :
    Loop a aStart b bStart n (dotBlocks data scales bStart a aStart n)
  | decoded : Loop a aStart b bStart n (dotDecoded a aStart b bStart n)

/-- Every pair of encodings leads to one of the loops. -/
theorem dotSupported_loop {a b : Elements α} (ha : a.WellFormed) (hb : b.WellFormed)
    {aStart bStart n : Nat} (hale : aStart + n ≤ a.size) (hble : bStart + n ≤ b.size) :
    Loop a aStart b bStart n (dotSupported a aStart b bStart n) := by
  cases a with
  | f32 x =>
    cases b with
    | f32 y =>
      rw [dotSupported, cut_eq_run ha hale, ok_bind, cut_eq_run hb hble, ok_bind]
      exact .values
    | f16 y | bf16 y => exact .decoded
    | q8 y t | q4 y t =>
      simp only [dotSupported, dtype, DType.isQuantized, true_and, decide_eq_true_eq]
      split
      · rw [cut_eq_run ha hale, ok_bind]
        exact .scaled rfl ‹_›
      · exact .decoded
  | f16 x | bf16 x => exact .decoded
  | q8 x s =>
    cases b with
    | f32 y =>
      simp only [dotSupported, decide_eq_true_eq]
      split
      · rw [cut_eq_run hb hble, ok_bind]
        exact .scaledFirst rfl ‹_›
      · exact .decoded
    | f16 y | bf16 y => exact .decoded
    | q8 y t | q4 y t =>
      simp only [dotSupported, decide_eq_true_eq]
      split
      · exact .blocks rfl rfl (And.left ‹_›) (And.right ‹_›)
      · exact .decoded
  | q4 x s =>
    cases b with
    | f32 y =>
      simp only [dotSupported, decide_eq_true_eq]
      split
      · rw [cut_eq_run hb hble, ok_bind]
        exact .scaledFirst rfl ‹_›
      · exact .decoded
    | q8 y t =>
      simp only [dotSupported, decide_eq_true_eq]
      split
      · exact .blocksFirst rfl rfl (And.left ‹_›) (And.right ‹_›)
      · exact .decoded
    | f16 y | bf16 y | q4 y t => exact .decoded

/-! ## Every loop gives a value -/

theorem exists_dotDecoded {a b : Elements α} (ha : a.WellFormed) (hb : b.WellFormed)
    {aStart bStart n : Nat} (hale : aStart + n ≤ a.size) (hble : bStart + n ≤ b.size) :
    ∃ v, dotDecoded a aStart b bStart n = .ok v := by
  refine exists_foldlM (fun k hk acc => ?_) 0
  have hlt := mul_lt_of_lt_runs (by decide) (List.mem_range.mp hk)
  dsimp only
  rw [read_eq_run ha (by omega), ok_bind, read_eq_run hb (by omega), ok_bind]
  exact ⟨_, rfl⟩

theorem exists_dotQuantized (x : Array α) {q : Elements α} (hq : q.WellFormed) {qStart : Nat}
    (ha : qStart % blockSize = 0) (hle : qStart + x.size ≤ q.size) :
    ∃ v, dotQuantized x q qStart = .ok v := by
  refine exists_foldlM (fun k hk acc => ?_) 0
  have hlt : k * blockSize < x.size :=
    mul_lt_of_lt_runs (m := blockSize) (by decide) (List.mem_range.mp hk)
  have hsize := Buffer.size_chunk x blockSize k
  dsimp only
  rw [block_mul ha, read_eq_run hq (by omega), ok_bind]
  exact ⟨_, rfl⟩

theorem exists_dotBlocks {data : Array Int8} {scales : Array α} {b : Elements α}
    {aStart bStart n : Nat} (ha : (q8 data scales).Scaled) (hb : b.Scaled)
    (hd : b.dtype.isQuantized) (haa : aStart % blockSize = 0) (hba : bStart % blockSize = 0)
    (hale : aStart + n ≤ data.size) (hble : bStart + n ≤ b.size) :
    ∃ v, dotBlocks data scales aStart b bStart n = .ok v := by
  have hfull : n / blockSize * blockSize ≤ n := Nat.div_mul_le_self ..
  have hhead : ∃ head, (List.range (n / blockSize)).foldlM (fun acc k => do
      let x ← block (.q8 data scales) (aStart / blockSize + k)
      let y ← block b (bStart / blockSize + k)
      return acc + Scalar.ofInt (dotCodes x.1 y.1) * x.2 * y.2) 0 = (.ok head : Outcome α) := by
    refine exists_foldlM (fun k hk acc => ?_) 0
    have hk := List.mem_range.mp hk
    obtain ⟨x, s, hx, -⟩ := exists_block ha rfl
      (block_succ_mul_le haa hk (show aStart + n / blockSize * blockSize ≤ data.size by omega))
    obtain ⟨y, t, hy, -⟩ := exists_block hb hd
      (block_succ_mul_le hba hk (show bStart + n / blockSize * blockSize ≤ b.size by omega))
    rw [hx, ok_bind, hy]
    exact ⟨_, rfl⟩
  obtain ⟨head, hhead⟩ := hhead
  rw [dotBlocks, hhead, ok_bind]
  refine exists_foldlM (fun i hi acc => ?_) head
  obtain ⟨k, hk, rfl⟩ := List.mem_range'.mp hi
  obtain ⟨x, hx⟩ := exists_get ha (i := aStart + (n / blockSize * blockSize + 1 * k))
    (show _ < data.size by omega)
  obtain ⟨y, hy⟩ := exists_get hb (i := bStart + (n / blockSize * blockSize + 1 * k)) (by omega)
  have hx : Q8.value data scales _ = .ok x := hx
  rw [hx, ok_bind, hy]
  exact ⟨_, rfl⟩

/-- Two windows inside their elements have a dot product, in any arithmetic. -/
theorem exists_dotSupported {a b : Elements α} (ha : a.WellFormed) (hb : b.WellFormed)
    {aStart bStart n : Nat} (hale : aStart + n ≤ a.size) (hble : bStart + n ≤ b.size) :
    ∃ v, dotSupported a aStart b bStart n = .ok v := by
  have hloop := dotSupported_loop ha hb hale hble
  generalize dotSupported a aStart b bStart n = out at hloop ⊢
  cases hloop with
  | values => exact ⟨_, rfl⟩
  | scaled hq hba => exact exists_dotQuantized _ hb hba (by rwa [size_run])
  | scaledFirst hq haa => exact exists_dotQuantized _ ha haa (by rwa [size_run])
  | blocks h hq haa hba =>
    subst h
    exact exists_dotBlocks ha.scaled hb.scaled hq haa hba hale hble
  | blocksFirst h hq haa hba =>
    subst h
    exact exists_dotBlocks hb.scaled ha.scaled hq hba haa hble hale
  | decoded => exact exists_dotDecoded ha hb hale hble

end Kernel

end BlockTensor

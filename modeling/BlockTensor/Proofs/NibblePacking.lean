import BlockTensor.Proofs.KernelLoop
import BlockTensor.Proofs.RoundTrip

/-!
# Places of nibble codes

Two codes share a byte, 16 elements apart, so a write must keep half of a byte, and whatever
unpacks a block must take its halves in the same order.

* `Q4.eq_of_place`: an element is determined by its byte and the half of it.
* `Q4.get_set`: a written element has the code, clamped, and every other one what it had.
* `Q4.get_eq_unpack`: the vector kernel unpacks the codes of a block in their order.
* `Q4.quantize_packs`: encoded buffers have the code of each value in its place (`Q4.Packs`),
  block by block, and `Q4.dequantize_eq_codes` decodes from there.
* `Q4.positions_agree`: all of them agree in a buffer of whole blocks.
-/

namespace BlockTensor.Q4

open Outcome

/-! ## The halves of a byte -/

/-- Without its low nibble, a byte is its high nibble, in place. -/
theorem and_not_lowMask (byte : UInt8) : byte &&& ~~~lowMask = (byte >>> 4) <<< 4 := by
  have hall : ∀ k : Fin 256, UInt8.ofNat k &&& ~~~lowMask = (UInt8.ofNat k >>> 4) <<< 4 := by
    decide +kernel
  have hbyte := hall ⟨byte.toNat, byte.toNat_lt⟩
  rwa [UInt8.ofNat_toNat] at hbyte

/-- A byte with a nibble replaced, as the two nibbles that it then has. -/
theorem withNibble_eq (i : Nat) (byte n : UInt8) :
    withNibble i byte n = (if isLow i then n else byte &&& lowMask) |||
      ((if isLow i then byte >>> 4 else n) <<< 4) := by
  unfold withNibble
  split
  · rw [and_not_lowMask, UInt8.or_comm]
  · rfl

/-- The nibble of the other half is kept. -/
theorem nibble_withNibble (i k : Nat) (byte : UInt8) {n : UInt8} (hn : n.toNat < 16) :
    nibble k (withNibble i byte n) = if isLow k = isLow i then n else nibble k byte := by
  have hlow : (byte &&& lowMask).toNat < 16 := UInt8.lt_iff_toNat_lt.mp (Kernel.nibble_lt 0 byte)
  have hhigh : (byte >>> 4).toNat < 16 :=
    UInt8.lt_iff_toNat_lt.mp (Kernel.nibble_lt q4BlockBytes byte)
  rw [withNibble_eq, nibble_or (by split <;> assumption) (by split <;> assumption), nibble]
  cases isLow k <;> cases isLow i <;> rfl

/-- An element is determined by its byte and the half of it. -/
theorem eq_of_place {i k : Nat} (hbyte : byteOf k = byteOf i) (hlow : isLow k = isLow i) :
    k = i := by
  have hlow : slot k < q4BlockBytes ↔ slot i < q4BlockBytes := by
    rw [← decide_eq_decide]
    exact hlow
  simp only [byteOf, slot, blockSize, q4BlockBytes] at *
  omega

/-! ## Codes -/

/-- A code, clamped to `-8 … 7`. -/
def clamp (q : Int) : Int := max (-8) (min 7 q)

theorem unsigned_lt (q : Int) : (unsigned q).toNat < 16 := by
  rw [unsigned, UInt8.toNat_ofNat']
  omega

theorem signed_unsigned (q : Int) : signed (unsigned q) = clamp q := by
  rw [signed, unsigned, clamp, UInt8.toNat_ofNat']
  omega

theorem get_of_lt {data : Array UInt8} {i : Nat} (h : byteOf i < data.size) :
    get data i = .ok (signed (nibble i data[byteOf i])) := by
  rw [get, Buffer.read_of_lt h]
  rfl

/-- A code depends on the nibble of its place alone. -/
theorem get_congr {data data' : Array UInt8} {i k : Nat}
    (h : data[byteOf i]?.map (nibble i) = data'[byteOf k]?.map (nibble k)) :
    get data i = get data' k := by
  have hget (data : Array UInt8) (i : Nat) :
      get data i = match data[byteOf i]?.map (nibble i) with
        | some n => .ok (signed n)
        | none => .stop .outOfBounds := by
    rw [get, Buffer.read]
    cases data[byteOf i]? <;> rfl
  rw [hget, hget, h]

theorem set_of_lt {data : Array UInt8} {i : Nat} (h : byteOf i < data.size) (q : Int) :
    set data i q =
      .ok (data.setIfInBounds (byteOf i) (withNibble i data[byteOf i] (unsigned q))) := by
  rw [set, Buffer.read_of_lt h]
  rfl

/-- A written element has the code, clamped, and every other one what it had. -/
theorem get_set {data : Array UInt8} {i : Nat} (hi : byteOf i < data.size) (q : Int) :
    ∃ data', set data i q = .ok data' ∧ data'.size = data.size ∧
      get data' i = .ok (clamp q) ∧ ∀ k, k ≠ i → get data' k = get data k := by
  refine ⟨_, set_of_lt hi q, Array.size_setIfInBounds, ?_, fun k hk => ?_⟩
  · rw [get, Buffer.read_eq_ok.mpr (Array.getElem?_setIfInBounds_self_of_lt hi), ok_bind,
      nibble_withNibble i i _ (unsigned_lt q), if_pos rfl, signed_unsigned]
    rfl
  · refine get_congr ?_
    by_cases hbyte : byteOf k = byteOf i
    · -- the other half of the byte
      have hlow : isLow k ≠ isLow i := fun h => hk (eq_of_place hbyte h)
      rw [hbyte, Array.getElem?_setIfInBounds_self_of_lt hi, Array.getElem?_eq_getElem hi,
        Option.map_some, Option.map_some, nibble_withNibble i k _ (unsigned_lt q), if_neg hlow]
    · rw [Array.getElem?_setIfInBounds_ne (Ne.symm hbyte)]

/-! ## Blocks -/

/-- What holds the bytes of a block has its codes. -/
theorem get_of_part {part data : Array UInt8} {b j : Nat}
    (h : part[byteOf j]? = data[b * q4BlockBytes + byteOf j]?) :
    get part j = get data (b * blockSize + j) := by
  have hstart : b * blockSize % blockSize = 0 := Nat.mul_mod_left ..
  refine get_congr ?_
  rw [byteOf_add hstart, Nat.mul_div_cancel _ (by decide : 0 < blockSize), h]
  exact congrArg (Option.map · _) (funext fun byte => (nibble_add hstart j byte).symm)

/-- A code is read in its block. -/
theorem get_eq_block (data : Array UInt8) (i : Nat) :
    get data i = get (Buffer.chunk data q4BlockBytes (i / blockSize)) (i % blockSize) := by
  have hj : i % blockSize < blockSize := Nat.mod_lt i (by decide)
  rw [get_of_part (Buffer.getElem?_chunk data (byteOf_lt_block hj)), Nat.div_add_mod']

/-- The vector kernel unpacks the codes of a block in the order of its elements. -/
theorem get_eq_unpack {bytes : Array UInt8} (h : q4BlockBytes ≤ bytes.size) :
    (List.range blockSize).map (get bytes) =
      (Kernel.unpack bytes).toList.map fun c => .ok c.toInt := by
  refine List.ext_getElem (by simp [Kernel.unpack]) fun j hj _ => ?_
  have hj : j < blockSize := by simpa using hj
  have hlt : byteOf j < bytes.size := Nat.lt_of_lt_of_le (byteOf_lt_block hj) h
  have hunpack := Kernel.toInt_unpack bytes hj
  rw [← byteOf_of_lt hj, Array.getD_eq_getD_getElem?, Array.getD_eq_getD_getElem?,
    Array.getElem?_eq_getElem hlt, Array.getElem?_eq_getElem (by simpa [Kernel.unpack] using hj),
    Option.getD_some, Option.getD_some] at hunpack
  rw [List.getElem_map, List.getElem_map, List.getElem_range, get_of_lt hlt, Array.getElem_toList,
    hunpack]

/-- So it does from a block on, up to any place after the block. -/
theorem get_eq_unpack_cut {data : Array UInt8} {b stop : Nat} (h : (b + 1) * q4BlockBytes ≤ stop)
    (hstop : stop ≤ data.size) :
    ∃ bytes, Buffer.cut data (b * q4BlockBytes) stop = .ok bytes ∧
      (List.range blockSize).map (fun j => get data (b * blockSize + j)) =
        (Kernel.unpack bytes).toList.map fun c => .ok c.toInt := by
  rw [Nat.succ_mul] at h
  refine ⟨_, Buffer.cut_of_le (by omega) hstop, ?_⟩
  rw [← get_eq_unpack (by rw [Array.size_extract]; omega)]
  refine List.map_congr_left fun j hj => (get_of_part ?_).symm
  have hbyte := byteOf_lt_block (List.mem_range.mp hj)
  exact Buffer.getElem?_extract_of_lt hstop (by omega)

/-! ## Encoded buffers -/

variable {α : Type} [Scalar α]

/-- The code of a value under a scale. -/
def code (s v : α) : Int :=
  clamp (Scalar.floor (v * inverseScale s + Scalar.ofInt 17 / Scalar.ofInt 2) - 8)

/-- The scale of block `b` of some values, zeros after the last one. -/
def scaleOf (src : Array α) (b : Nat) : α :=
  scale (dominant ((List.range blockSize).map fun j => src.getD (b * blockSize + j) 0))

/-- Buffers that hold the code of each value in its place, and the scale of each block. -/
structure Packs (src : Array α) (data : Array UInt8) (scales : Array α) : Prop where
  scale_eq : ∀ b < scales.size, scales[b]? = some (scaleOf src b)
  get_eq : ∀ i < scales.size * blockSize,
    get data i = .ok (code (scaleOf src (i / blockSize)) (src.getD i 0))

theorem signed_encodeNibble_eq (s v : α) :
    signed (encodeNibble (v * inverseScale s)) = code s v := by
  rw [signed, encodeNibble, code, clamp, UInt8.toNat_ofNat']
  omega

/-- A block is encoded as the codes of its values. -/
theorem get_encodeBlock (values : Array α) {j : Nat} (hj : j < blockSize) :
    get (encodeBlock values).1 j = .ok (code (encodeBlock values).2 (values.getD j 0)) := by
  obtain ⟨byte, hbyte, hnibble⟩ := nibble_encodeBlock values hj
  rw [get, Buffer.read_eq_ok.mpr hbyte, ok_bind, hnibble, signed_encodeNibble_eq]
  rfl

theorem scale_encodeBlock (src : Array α) (b : Nat) :
    (encodeBlock (Buffer.chunk src blockSize b)).2 = scaleOf src b := by
  refine congrArg (fun values => scale (dominant values)) (List.map_congr_left fun j hj => ?_)
  rw [Buffer.getD_chunk, if_pos (List.mem_range.mp hj)]

/-- Encoding packs each value in its place, block by block, and leaves the elements that
have no scale. -/
theorem quantize_packs {src : Array α} {data : Array UInt8} {scales : Array α}
    (hsrc : src.size ≤ scales.size * blockSize) (hdata : scales.size * q4BlockBytes ≤ data.size) :
    ∃ data' scales', quantize src data scales = .ok (data', scales') ∧
      data'.size = data.size ∧ scales'.size = scales.size ∧ Packs src data' scales' ∧
      ∀ i, scales.size * blockSize ≤ i → get data' i = get data i := by
  have hroomy : (Elements.q4 data scales).Roomy := ⟨rfl, hdata⟩
  obtain ⟨e', hquantize, hl, hblocks⟩ := Elements.quantize_blocks hroomy hsrc
  obtain ⟨⟨data', scales'⟩, hbuffers, he⟩ := bind_eq_ok.mp hquantize
  obtain rfl := Except.ok.inj he
  simp only [Elements.layout, Prod.mk.injEq, true_and] at hl
  have hblock (b : Nat) (hb : b < scales.size) :
      Buffer.chunk data' q4BlockBytes b = (encodeBlock (Buffer.chunk src blockSize b)).1 ∧
        Buffer.chunk scales' 1 b = #[scaleOf src b] := by
    have heq := (hblocks b).trans (if_pos hb)
    simpa only [Elements.block, Elements.encodedBlock, Elements.dtype, Elements.q4.injEq,
      scale_encodeBlock] using heq
  refine ⟨data', scales', hbuffers, hl.1, hl.2, ⟨fun b hb => ?_, fun i hi => ?_⟩, fun i hi => ?_⟩
  · have hget := Buffer.getElem?_chunk scales' (b := b) Nat.one_pos
    rw [(hblock b (hl.2 ▸ hb)).2, Nat.mul_one] at hget
    exact hget.symm
  · have hb : i / blockSize < scales.size := Nat.div_lt_of_lt_mul (Nat.mul_comm .. ▸ hl.2 ▸ hi)
    have hj : i % blockSize < blockSize := Nat.mod_lt i (by decide)
    rw [get_eq_block, (hblock _ hb).1, get_encodeBlock _ hj, scale_encodeBlock, Buffer.getD_chunk,
      if_pos hj, Nat.div_add_mod']
  · have hb : ¬i / blockSize < scales.size := by
      simp only [blockSize] at *
      omega
    have heq := (hblocks (i / blockSize)).trans (if_neg hb)
    simp only [Elements.block, Elements.q4.injEq] at heq
    rw [get_eq_block data', heq.1, ← get_eq_block]

/-- An element is decoded as its code times the scale of its block. -/
theorem dequantize_eq_codes {data : Array UInt8} {scales : Array α} {n : Nat}
    (hn : n ≤ scales.size * blockSize) (hdata : scales.size * q4BlockBytes ≤ data.size) :
    ∃ out, dequantize data scales n = .ok out ∧ out.size = n ∧
      ∀ i < n, ∃ q s, get data i = .ok q ∧ scales[i / blockSize]? = some s ∧
        out[i]? = some (Scalar.ofInt q * s) := by
  have hvalue (i : Nat) (hi : i < n) : ∃ q s, get data i = .ok q ∧
      scales[i / blockSize]? = some s ∧ value data scales i = .ok (Scalar.ofInt q * s) := by
    have hi : i < scales.size * blockSize := Nat.lt_of_lt_of_le hi hn
    have hbyte : byteOf i < data.size := Nat.lt_of_lt_of_le (byteOf_lt hi) hdata
    have hb : i / blockSize < scales.size := Nat.div_lt_of_lt_mul (Nat.mul_comm .. ▸ hi)
    refine ⟨_, _, get_of_lt hbyte, Array.getElem?_eq_getElem hb, ?_⟩
    rw [value, get_of_lt hbyte, ok_bind, Buffer.read_of_lt hb]
    rfl
  obtain ⟨out, hout⟩ : ∃ out, dequantize data scales n = .ok out := by
    refine ⟨_, Elements.dequantize_eq_run (e := .q4 data scales) fun i hi => ?_⟩
    obtain ⟨q, s, -, -, hv⟩ := hvalue i hi
    exact ⟨_, hv⟩
  obtain ⟨hsize, hall⟩ := Buffer.of_generate hout
  refine ⟨out, hout, hsize, fun i hi => ?_⟩
  obtain ⟨q, s, hq, hs, hv⟩ := hvalue i hi
  have hi : i < out.size := hsize ▸ hi
  have hget := hall i hi
  rw [Nat.zero_add, hv] at hget
  refine ⟨q, s, hq, hs, ?_⟩
  rw [Array.getElem?_eq_getElem hi, Except.ok.inj hget]

/-- In a buffer of whole blocks, all that reads and writes codes agrees on their places. A
written element reads as its code, clamped, and every other one as before. From a cut that
starts with a block, the vector kernel unpacks the codes of its elements, in their order. A
decoded element is its code times the scale of its block. Encoding puts the code of each value
in its place, and leaves the elements that have no scale. -/
theorem positions_agree {data : Array UInt8} {blocks : Nat}
    (h : data.size = blocks * q4BlockBytes) :
    (∀ i < blocks * blockSize, ∀ q : Int8, ∃ data', set data i q.toInt = .ok data' ∧
      data'.size = data.size ∧ get data' i = .ok (clamp q.toInt) ∧
      ∀ k < blocks * blockSize, k ≠ i → ∃ c, get data k = .ok c ∧ get data' k = .ok c) ∧
    (∀ b < blocks, ∀ stop, (b + 1) * q4BlockBytes ≤ stop → stop ≤ data.size →
      ∃ bytes, Buffer.cut data (b * q4BlockBytes) stop = .ok bytes ∧
        (List.range blockSize).map (fun j => get data (b * blockSize + j)) =
          (Kernel.unpack bytes).toList.map fun c => .ok c.toInt) ∧
    ∀ scales : Array α, scales.size ≤ blocks →
      (∀ n ≤ scales.size * blockSize, ∃ out, dequantize data scales n = .ok out ∧ out.size = n ∧
        ∀ i < n, ∃ q s, get data i = .ok q ∧ scales[i / blockSize]? = some s ∧
          out[i]? = some (Scalar.ofInt q * s)) ∧
      ∀ src : Array α, src.size ≤ scales.size * blockSize →
        ∃ data' scales', quantize src data scales = .ok (data', scales') ∧
          data'.size = data.size ∧ scales'.size = scales.size ∧ Packs src data' scales' ∧
          ∀ i, scales.size * blockSize ≤ i → get data' i = get data i := by
  have hbyte (i : Nat) (hi : i < blocks * blockSize) : byteOf i < data.size := h ▸ byteOf_lt hi
  refine ⟨fun i hi q => ?_, fun b _ stop => get_eq_unpack_cut, fun scales hs => ?_⟩
  · obtain ⟨data', hset, hsize, hself, hother⟩ := get_set (hbyte i hi) q.toInt
    exact ⟨data', hset, hsize, hself, fun k hk hne =>
      ⟨_, get_of_lt (hbyte k hk), (hother k hne).trans (get_of_lt (hbyte k hk))⟩⟩
  · have hdata : scales.size * q4BlockBytes ≤ data.size := h ▸ Nat.mul_le_mul_right _ hs
    exact ⟨fun n hn => dequantize_eq_codes hn hdata, fun src hsrc => quantize_packs hsrc hdata⟩

theorem positions_agree_sharedBytes :
    let data : Array UInt8 := .replicate 32 0x88
    let src : Array ℤ := #[-8] ++ .replicate 15 0 ++ #[4]
    data.size = 2 * q4BlockBytes ∧
      (∃ data', set data 35 (-100) = .ok data' ∧ get data' 35 = .ok (-8) ∧
        get data' 51 = .ok 0) ∧
      (∃ bytes, Buffer.cut data 16 32 = .ok bytes ∧
        (List.range 32).map (fun j => get data (32 + j)) =
          (Kernel.unpack bytes).toList.map fun c => .ok c.toInt) ∧
      ∃ data' scales', quantize src data #[0, 0] = .ok (data', scales') ∧
        get data' 0 = .ok (-8) ∧ get data' 16 = .ok 4 ∧ get data' 40 = .ok 0 := by
  intro data src
  have h : data.size = 2 * q4BlockBytes := rfl
  obtain ⟨hset, hunpack, hcodec⟩ := positions_agree (α := ℤ) h
  obtain ⟨written, hwritten, -, hself, hother⟩ := hset 35 (by decide) (-100)
  obtain ⟨c, hold, hnew⟩ := hother 51 (by decide) (by decide)
  have hzero : get data 51 = .ok 0 := by decide +kernel
  obtain rfl : 0 = c := Except.ok.inj (hzero.symm.trans hold)
  obtain ⟨-, hquantize⟩ := hcodec #[0, 0] (by decide)
  obtain ⟨data', scales', hdata', -, hscales, hpacks, -⟩ := hquantize src (by decide)
  have hcode {i : Nat} {q : Int} (hi : i < 64)
      (hq : code (scaleOf src (i / blockSize)) (src.getD i 0) = q) : get data' i = .ok q :=
    hq ▸ hpacks.get_eq i (hscales ▸ hi)
  refine ⟨h, ⟨written, hwritten, hself, hnew⟩, hunpack 1 (by decide) 32 (by decide) (by decide),
    data', scales', hdata', ?_, ?_, ?_⟩
  · exact hcode (by decide) (by decide +kernel)
  · exact hcode (by decide) (by decide +kernel)
  · exact hcode (by decide) (by decide +kernel)

end BlockTensor.Q4

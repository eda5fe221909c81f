import BlockTensor.Proofs.Buffer

/-!
# Stored patterns

`Elements.cell? e i` is what is stored for element `i`, before it is decoded: a
pattern of a float encoding, a code and the scale of its block of a quantized
one. A value depends on its cell alone (`get_eq_cell`), so laws about what an
operation copies, keeps or moves are stated on cells.

* `Elements.Scaled` says that quantized elements have one scale to a block,
  `Elements.WellFormed` also that their number is a machine word;
  `exists_cell` says that all of them can be read then.
* `Elements.layout` is what elements are apart from their cells.
* `IsRange` says that elements are the blocks of a range of others, cell by cell,
  as `Elements.extract` cuts them out (`extract_isRange`), so a sub-range is one
  (`slice_isRange`), and `slice_eq` says when there is one.
* `read_eq_generate` reads a range one element after the other.
-/

namespace BlockTensor

open Outcome

/-- What is stored for one element. -/
inductive Cell (α : Type)
  | f32 (v : α)
  | f16 (u : UInt16)
  | bf16 (u : UInt16)
  | q8 (code : Int8) (scale : α)
  | q4 (nibble : UInt8) (scale : α)
  deriving DecidableEq

/-- The value of a stored pattern. -/
def Cell.decode {α : Type} [Scalar α] : Cell α → α
  | f32 v => v
  | f16 u => Scalar.half u
  | bf16 u => Scalar.brain u
  | q8 code scale => Scalar.ofInt code.toInt * scale
  | q4 nibble scale => Scalar.ofInt (Q4.signed nibble) * scale

/-- An element lies in the block that it is counted from. -/
theorem div_of_lt_block (b : Nat) {j : Nat} (hj : j < blockSize) :
    (b * blockSize + j) / blockSize = b := by
  simp only [blockSize] at *
  omega

theorem byteOf_add {start : Nat} (h : start % blockSize = 0) (i : Nat) :
    Q4.byteOf (start + i) = start / blockSize * q4BlockBytes + Q4.byteOf i := by
  simp only [Q4.byteOf, Q4.slot, blockSize, q4BlockBytes] at *
  omega

/-- The bytes of an element's block start at half of what its elements start at. -/
theorem byteOf_half_add {start : Nat} (h : start % blockSize = 0) (i : Nat) :
    Q4.byteOf (start + i) = start / 2 + Q4.byteOf i := by
  simp only [Q4.byteOf, Q4.slot, blockSize, q4BlockBytes] at *
  omega

theorem nibble_add {start : Nat} (h : start % blockSize = 0) (i : Nat) (byte : UInt8) :
    Q4.nibble (start + i) byte = Q4.nibble i byte := by
  have hs : (start + i) % blockSize = i % blockSize := by
    simp only [blockSize] at *
    omega
  rw [Q4.nibble, Q4.isLow, Q4.slot, hs]
  rfl

/-- A byte of `n` whole blocks holds each of their elements. -/
theorem byteOf_lt {i n : Nat} (h : i < n * blockSize) : Q4.byteOf i < n * q4BlockBytes := by
  simp only [Q4.byteOf, Q4.slot, blockSize, q4BlockBytes] at *
  omega

/-- The elements of the first block take turns in its bytes. -/
theorem byteOf_of_lt {j : Nat} (hj : j < blockSize) : Q4.byteOf j = j % q4BlockBytes := by
  rw [Q4.byteOf, Q4.slot, Nat.div_eq_of_lt hj, Nat.mod_eq_of_lt hj, Nat.zero_mul, Nat.zero_add]

theorem byteOf_lt_block {j : Nat} (hj : j < blockSize) : Q4.byteOf j < q4BlockBytes :=
  byteOf_of_lt hj ▸ Nat.mod_lt j (by decide)

namespace Elements

variable {α : Type}

/-- What is stored for element `i`. -/
def cell? (e : Elements α) (i : Nat) : Option (Cell α) :=
  match e with
  | f32 data => data[i]?.map .f32
  | f16 data => data[i]?.map .f16
  | bf16 data => data[i]?.map .bf16
  | q8 data scales => data[i]?.bind fun q => scales[i / blockSize]?.map (.q8 q)
  | q4 data scales =>
    data[Q4.byteOf i]?.bind fun b => scales[i / blockSize]?.map (.q4 (Q4.nibble i b))

/-- Quantized elements have one scale to a block, and no parts of blocks. -/
def Scaled : Elements α → Prop
  | q8 data scales => data.size = scales.size * blockSize
  | q4 data scales => data.size = scales.size * q4BlockBytes
  | _ => True

/-- Elements as an engine can hold them. -/
structure WellFormed (e : Elements α) : Prop where
  scaled : e.Scaled
  fits : e.size < Word.bound

/-- The encoding, and the lengths of the data and of the scales. -/
def layout : Elements α → DType × Nat × Nat
  | f32 data => (.f32, data.size, 0)
  | f16 data => (.f16, data.size, 0)
  | bf16 data => (.bf16, data.size, 0)
  | q8 data scales => (.q8, data.size, scales.size)
  | q4 data scales => (.q4, data.size, scales.size)

/-- Units of the buffer of data: the bytes of nibbles, the elements of any other
encoding. -/
def dataCount (e : Elements α) : Nat := e.layout.2.1

/-- The number of scales. -/
def scaleCount (e : Elements α) : Nat := e.layout.2.2

theorem size_eq_of_scaled_q8 {data : Array Int8} {scales : Array α} (h : (q8 data scales).Scaled) :
    data.size = scales.size * blockSize := h

theorem size_eq_of_scaled_q4 {data : Array UInt8} {scales : Array α} (h : (q4 data scales).Scaled) :
    data.size = scales.size * q4BlockBytes := h

/-- Only nibbles share the units of their buffer. -/
theorem dataCount_eq_size {e : Elements α} (h : e.dtype ≠ .q4) : e.dataCount = e.size := by
  cases e with
  | q4 data scales => exact absurd rfl h
  | _ => rfl

theorem byteOf_lt_dataCount {e : Elements α} (he : e.Scaled) (hd : e.dtype = .q4) {i : Nat}
    (hi : i < e.size) : Q4.byteOf i < e.dataCount := by
  cases e with
  | q4 data scales =>
    have hs := size_eq_of_scaled_q4 he
    rw [dataCount, layout, hs]
    refine byteOf_lt ?_
    simp only [size, blockSize, q4BlockBytes] at *
    omega
  | _ => cases hd

theorem div_block_lt_scaleCount {e : Elements α} (he : e.Scaled) (hq : e.dtype.isQuantized)
    {i : Nat} (hi : i < e.size) : i / blockSize < e.scaleCount := by
  cases e with
  | q8 data scales =>
    have hs := size_eq_of_scaled_q8 he
    simp only [scaleCount, layout, size, blockSize] at *
    omega
  | q4 data scales =>
    have hs := size_eq_of_scaled_q4 he
    simp only [scaleCount, layout, size, blockSize, q4BlockBytes] at *
    omega
  | _ => cases hq

/-- Quantized elements are whole blocks. -/
theorem size_eq_scaleCount {e : Elements α} (he : e.Scaled) (hq : e.dtype.isQuantized) :
    e.size = e.scaleCount * blockSize := by
  cases e with
  | f32 data | f16 data | bf16 data => cases hq
  | q8 data scales => exact size_eq_of_scaled_q8 he
  | q4 data scales =>
    have hs := size_eq_of_scaled_q4 he
    simp only [scaleCount, layout, size, blockSize, q4BlockBytes] at *
    omega

theorem cell?_q8_of_lt {data : Array Int8} {scales : Array α} {i : Nat} (hi : i < data.size)
    (hs : i / blockSize < scales.size) :
    (q8 data scales).cell? i = some (.q8 data[i] scales[i / blockSize]) := by
  rw [cell?, Array.getElem?_eq_getElem hi, Array.getElem?_eq_getElem hs]
  rfl

theorem cell?_q4_of_lt {data : Array UInt8} {scales : Array α} {i : Nat}
    (hi : Q4.byteOf i < data.size) (hs : i / blockSize < scales.size) :
    (q4 data scales).cell? i =
      some (.q4 (Q4.nibble i data[Q4.byteOf i]) scales[i / blockSize]) := by
  rw [cell?, Array.getElem?_eq_getElem hi, Array.getElem?_eq_getElem hs]
  rfl

/-- With a scale to its block, an element can be read if it lies before the end of a
block. -/
theorem exists_cell_of_scale {e : Elements α} {i stop : Nat} (hi : i < stop)
    (hstop : stop ≤ e.size) (ha : stop % e.dtype.blockSize = 0)
    (hs : e.dtype.isQuantized → i / blockSize < e.scaleCount) : ∃ c, e.cell? i = some c := by
  cases e with
  | f32 data | f16 data | bf16 data =>
    exact ⟨_, by rw [cell?, Array.getElem?_eq_getElem (Nat.lt_of_lt_of_le hi hstop)]; rfl⟩
  | q8 data scales => exact ⟨_, cell?_q8_of_lt (Nat.lt_of_lt_of_le hi hstop) (hs rfl)⟩
  | q4 data scales =>
    have ha : stop % blockSize = 0 := ha
    have hbyte : Q4.byteOf i < data.size := by
      simp only [size, Q4.byteOf, Q4.slot, blockSize, q4BlockBytes] at *
      omega
    exact ⟨_, cell?_q4_of_lt hbyte (hs rfl)⟩

theorem Scaled.size_mod {e : Elements α} (h : e.Scaled) : e.size % e.dtype.blockSize = 0 := by
  by_cases hq : e.dtype.isQuantized
  · rw [size_eq_scaleCount h hq, DType.blockSize, if_pos hq]
    exact Nat.mul_mod_left ..
  · rw [DType.blockSize, if_neg hq]
    exact Nat.mod_one _

/-- Every element has a cell. -/
theorem exists_cell {e : Elements α} (h : e.Scaled) {i : Nat} (hi : i < e.size) :
    ∃ c, e.cell? i = some c :=
  exists_cell_of_scale hi (Nat.le_refl _) h.size_mod fun hq => div_block_lt_scaleCount h hq hi

/-- Without a scale to its block, no quantized element can be read. -/
theorem cell?_eq_none_of_scale {e : Elements α} (hq : e.dtype.isQuantized) {i : Nat}
    (hs : e.scaleCount ≤ i / blockSize) : e.cell? i = none := by
  cases e with
  | f32 data | f16 data | bf16 data => cases hq
  | q8 data scales | q4 data scales =>
    have hscale : scales[i / blockSize]? = none := Array.getElem?_eq_none hs
    simp [cell?, hscale]

section

variable [Scalar α]

/-- A value depends on its cell alone. -/
theorem get_eq_cell (e : Elements α) (i : Nat) :
    e.get i = match e.cell? i with
      | some c => .ok c.decode
      | none => .stop .outOfBounds := by
  cases e with
  | f32 data | f16 data | bf16 data =>
    simp only [get, cell?, Buffer.read]
    cases data[i]? <;> rfl
  | q8 data scales =>
    simp only [get, cell?, Q8.value, Buffer.read]
    cases data[i]? with
    | none => rfl
    | some q => cases scales[i / blockSize]? <;> rfl
  | q4 data scales =>
    simp only [get, cell?, Q4.value, Q4.get, Buffer.read]
    cases data[Q4.byteOf i]? with
    | none => rfl
    | some b => cases scales[i / blockSize]? <;> rfl

theorem get_congr {e e' : Elements α} {i j : Nat} (h : e.cell? i = e'.cell? j) :
    e.get i = e'.get j := by
  rw [get_eq_cell, get_eq_cell, h]

theorem exists_get {e : Elements α} (h : e.Scaled) {i : Nat} (hi : i < e.size) :
    ∃ x, e.get i = .ok x := by
  obtain ⟨c, hc⟩ := exists_cell h hi
  exact ⟨c.decode, by rw [get_eq_cell, hc]⟩

/-- The value of element `i`, zero where there is none. -/
def value (e : Elements α) (i : Nat) : α := ((e.cell? i).map Cell.decode).getD 0

theorem get_eq_value {e : Elements α} (h : e.Scaled) {i : Nat} (hi : i < e.size) :
    e.get i = .ok (e.value i) := by
  obtain ⟨c, hc⟩ := exists_cell h hi
  rw [get_eq_cell, value, hc]
  rfl

/-- A range is read one element after the other. -/
theorem read_eq_generate (e : Elements α) {start len : Nat} (h : start + len ≤ e.size)
    (hb : e.size < Word.bound) : e.read start len = Buffer.generate start len e.get := by
  rw [read, Word.add_of_lt (by omega), ok_bind]
  cases e with
  | f32 data => exact Buffer.cut_eq_generate h
  | f16 data | bf16 data =>
    simp only [Buffer.cut_eq_generate (show start + len ≤ data.size from h)]
    exact Buffer.map_generate ..
  | q8 data scales | q4 data scales => rfl

theorem generate_of_read {e : Elements α} {start len : Nat} {values : Array α}
    (h : e.read start len = .ok values) : Buffer.generate start len e.get = .ok values := by
  obtain ⟨stop, hstop, h⟩ := bind_eq_ok.mp h
  obtain ⟨-, rfl⟩ := Word.check_eq_ok.mp hstop
  cases e with
  | f32 data =>
    obtain ⟨-, hle, -⟩ := Buffer.cut_eq_ok.mp h
    exact (Buffer.cut_eq_generate hle).symm.trans h
  | f16 data | bf16 data =>
    obtain ⟨run, hrun, h⟩ := bind_eq_ok.mp h
    obtain ⟨-, hle, -⟩ := Buffer.cut_eq_ok.mp hrun
    rw [Buffer.cut_eq_generate hle] at hrun
    refine (Buffer.map_generate start len (Buffer.read data) _).symm.trans ?_
    rw [hrun]
    exact h
  | q8 data scales | q4 data scales => exact h

theorem value_of_get {e : Elements α} {i : Nat} {v : α} (h : e.get i = .ok v) : e.value i = v := by
  rw [get_eq_cell] at h
  unfold value
  cases hc : e.cell? i with
  | none =>
    rw [hc] at h
    cases h
  | some c =>
    rw [hc] at h
    exact Except.ok.inj h

theorem value_congr {e e' : Elements α} {i j : Nat} (h : e.cell? i = e'.cell? j) :
    e.value i = e'.value j := by
  rw [value, value, h]

end

/-! ## Sub-ranges -/

theorem cell?_extract_q8 {data : Array Int8} {scales : Array α} {first last i : Nat}
    (hd : last * blockSize ≤ data.size) (hs : last ≤ scales.size)
    (hi : i < (last - first) * blockSize) :
    (q8 (data.extract (first * blockSize) (last * blockSize))
        (scales.extract first last)).cell? i =
      (q8 data scales).cell? (first * blockSize + i) := by
  have hb : i / blockSize < last - first := Nat.div_lt_of_lt_mul (by rwa [Nat.mul_comm])
  have he : (first * blockSize + i) / blockSize = first + i / blockSize := by
    rw [Nat.add_comm, Nat.add_mul_div_right _ _ (by decide), Nat.add_comm]
  rw [cell?, cell?, Buffer.getElem?_extract_of_lt hd (by rwa [← Nat.sub_mul]),
    Buffer.getElem?_extract_of_lt hs hb, he]

theorem cell?_extract_q4 {data : Array UInt8} {scales : Array α} {first last i : Nat}
    (hd : last * q4BlockBytes ≤ data.size) (hs : last ≤ scales.size)
    (hi : i < (last - first) * blockSize) :
    (q4 (data.extract (first * q4BlockBytes) (last * q4BlockBytes))
        (scales.extract first last)).cell? i =
      (q4 data scales).cell? (first * blockSize + i) := by
  have hm : first * blockSize % blockSize = 0 := Nat.mul_mod_left ..
  have hb : i / blockSize < last - first := Nat.div_lt_of_lt_mul (by rwa [Nat.mul_comm])
  have he : (first * blockSize + i) / blockSize = first + i / blockSize := by
    rw [Nat.add_comm, Nat.add_mul_div_right _ _ (by decide), Nat.add_comm]
  rw [cell?, cell?, Buffer.getElem?_extract_of_lt hd (Nat.sub_mul .. ▸ byteOf_lt hi),
    Buffer.getElem?_extract_of_lt hs hb, byteOf_add hm, he,
    Nat.mul_div_cancel _ (by decide : 0 < blockSize)]
  simp only [nibble_add hm]

/-- A range that starts on a block touches as many blocks as one that starts with
the first. -/
theorem blocksOf_mul_add (first len : Nat) :
    blocksOf (first * blockSize + len) = first + blocksOf len := by
  simp only [blocksOf, blockSize]
  omega

theorem blocksOf_le {n blocks : Nat} (h : n ≤ blocks * blockSize) : blocksOf n ≤ blocks := by
  simp only [blocksOf, blockSize] at *
  omega

/-- The blocks that a range touches can be cut out of data with `u` units to a
block, and so can their scales. -/
theorem cut_blocks {β : Type} {data : Array β} {scales : Array α} {first len u : Nat}
    (hs : data.size = scales.size * u) (h : first * blockSize + len ≤ scales.size * blockSize) :
    let last := blocksOf (first * blockSize + len)
    last ≤ scales.size ∧ last * u ≤ data.size ∧
      Buffer.cut data (first * u) (last * u) = .ok (data.extract (first * u) (last * u)) ∧
      Buffer.cut scales first last = .ok (scales.extract first last) ∧
      (data.extract (first * u) (last * u)).size = blocksOf len * u ∧
      (scales.extract first last).size = blocksOf len := by
  intro last
  have hl : last ≤ scales.size := blocksOf_le h
  have hlast : last = first + blocksOf len := blocksOf_mul_add first len
  have hfl : first ≤ last := by omega
  have hd : last * u ≤ data.size := hs ▸ Nat.mul_le_mul_right _ hl
  refine ⟨hl, hd, Buffer.cut_of_le (Nat.mul_le_mul_right _ hfl) hd, Buffer.cut_of_le hfl hl, ?_, ?_⟩
  · rw [Array.size_extract, Nat.min_eq_left hd, ← Nat.sub_mul, hlast, Nat.add_sub_cancel_left]
  · rw [Array.size_extract, Nat.min_eq_left hl, hlast, Nat.add_sub_cancel_left]

/-- `e'` are the blocks in which the `len` elements of `e` from `start` on lie. -/
structure IsRange (e : Elements α) (start len : Nat) (e' : Elements α) : Prop where
  dtype : e'.dtype = e.dtype
  scaled : e'.Scaled
  size : e'.size = e.dtype.blocksFor len * e.dtype.blockSize
  aligned : start % e.dtype.blockSize = 0
  within : start + e'.size ≤ e.size
  cell : ∀ i < e'.size, e'.cell? i = e.cell? (start + i)

theorem IsRange.le_size {e e' : Elements α} {start len : Nat} (h : e.IsRange start len e') :
    len ≤ e'.size := h.size ▸ DType.blocksFor_le ..

/-- The number of elements matters only for the number of blocks. -/
theorem IsRange.of_size {e e' : Elements α} {start len len' : Nat} (h : e.IsRange start len e')
    (hsize : e'.size = e.dtype.blocksFor len' * e.dtype.blockSize) : e.IsRange start len' e' :=
  { h with size := hsize }

/-- Elements are a range of themselves. -/
theorem isRange_self {e : Elements α} (he : e.Scaled) {n : Nat}
    (hn : e.size = e.dtype.blocksFor n * e.dtype.blockSize) : e.IsRange 0 n e :=
  ⟨rfl, he, hn, Nat.zero_mod _, by omega, fun i _ => by rw [Nat.zero_add]⟩

/-- A range of a range is a range. -/
theorem IsRange.trans {e e' e'' : Elements α} {start len start' len' : Nat}
    (h : e.IsRange start len e') (h' : e'.IsRange start' len' e'') :
    e.IsRange (start + start') len' e'' where
  dtype := h'.dtype.trans h.dtype
  scaled := h'.scaled
  size := h.dtype ▸ h'.size
  aligned := by
    have ha' : start' % e.dtype.blockSize = 0 := h.dtype ▸ h'.aligned
    rw [Nat.add_mod, h.aligned, ha', Nat.zero_add, Nat.zero_mod]
  within := by
    have := h.within
    have := h'.within
    omega
  cell i hi := by
    have := h'.within
    rw [h'.cell i hi, h.cell _ (by omega), Nat.add_assoc]

/-- The blocks in which the `len` elements from `start` on lie. -/
def extract (e : Elements α) (start len : Nat) : Elements α :=
  let stop := start + len
  let first := start / blockSize
  let last := blocksOf stop
  match e with
  | f32 data => f32 (data.extract start stop)
  | f16 data => f16 (data.extract start stop)
  | bf16 data => bf16 (data.extract start stop)
  | q8 data scales =>
    q8 (data.extract (first * blockSize) (last * blockSize)) (scales.extract first last)
  | q4 data scales =>
    q4 (data.extract (first * q4BlockBytes) (last * q4BlockBytes)) (scales.extract first last)

theorem extract_isRange {e : Elements α} (he : e.Scaled) {start len : Nat}
    (ha : start % e.dtype.blockSize = 0) (hle : start + len ≤ e.size) :
    e.IsRange start len (e.extract start len) := by
  -- a float encoding keeps exactly the range, a quantized one the blocks that it touches
  cases e with
  | f32 data | f16 data | bf16 data =>
    have hs := Buffer.size_extract_of_le hle
    refine ⟨rfl, trivial, ?_, ha, ?_, fun i hi => ?_⟩
    · rw [extract, size, hs]
      exact (Nat.mul_one len).symm
    · rw [extract, size, hs]
      exact hle
    · rw [extract, size, hs] at hi
      rw [extract, cell?, cell?, Buffer.getElem?_extract_of_lt hle (by omega)]
  | q8 data scales =>
    obtain ⟨first, rfl⟩ := Nat.dvd_of_mod_eq_zero ha
    rw [show (q8 data scales).dtype.blockSize * first = first * blockSize from Nat.mul_comm ..]
      at hle ⊢
    have hs := size_eq_of_scaled_q8 he
    have hle : first * blockSize + len ≤ scales.size * blockSize := hs ▸ hle
    obtain ⟨hl, hd, -, -, hsize, hsizes⟩ := cut_blocks hs hle
    have hlast := blocksOf_mul_add first len
    dsimp only [extract]
    rw [Nat.mul_div_cancel _ (by decide : 0 < blockSize)]
    refine ⟨rfl, by rw [Scaled, hsize, hsizes], hsize, Nat.mul_mod_left .., ?_, fun i hi => ?_⟩
    · rw [size, hsize, ← Nat.add_mul, ← hlast]
      exact hd
    · rw [size, hsize] at hi
      refine cell?_extract_q8 hd hl ?_
      rwa [hlast, Nat.add_sub_cancel_left]
  | q4 data scales =>
    obtain ⟨first, rfl⟩ := Nat.dvd_of_mod_eq_zero ha
    rw [show (q4 data scales).dtype.blockSize * first = first * blockSize from Nat.mul_comm ..]
      at hle ⊢
    have hs := size_eq_of_scaled_q4 he
    have hbytes (n : Nat) : n * q4BlockBytes * 2 = n * blockSize := Nat.mul_assoc ..
    have hheld : (q4 data scales).size = scales.size * blockSize := by rw [size, hs, hbytes]
    obtain ⟨hl, hd, -, -, hsize, hsizes⟩ := cut_blocks hs (hheld ▸ hle)
    have hlast := blocksOf_mul_add first len
    dsimp only [extract]
    rw [Nat.mul_div_cancel _ (by decide : 0 < blockSize)]
    refine ⟨rfl, by rw [Scaled, hsize, hsizes], ?_, Nat.mul_mod_left .., ?_, fun i hi => ?_⟩
    · rw [size, hsize, hbytes]
      rfl
    · rw [hheld, size, hsize, hbytes, ← Nat.add_mul, ← hlast]
      exact Nat.mul_le_mul_right _ hl
    · rw [size, hsize, hbytes] at hi
      refine cell?_extract_q4 hd hl ?_
      rwa [hlast, Nat.add_sub_cancel_left]

/-- A sub-range is cut out on blocks. -/
theorem eq_extract_of_slice {e e' : Elements α} {start len : Nat}
    (h : e.slice start len = .ok e') :
    start % e.dtype.blockSize = 0 ∧ start + len ≤ e.size ∧ e' = e.extract start len := by
  obtain ⟨_, hrange, h⟩ := bind_eq_ok.mp h
  obtain ⟨hle, -⟩ := checkRange_eq_ok hrange
  cases e with
  | f32 data | f16 data | bf16 data =>
    obtain ⟨run, hrun, h⟩ := bind_eq_ok.mp h
    obtain ⟨-, -, rfl⟩ := Buffer.cut_eq_ok.mp hrun
    exact ⟨Nat.mod_one _, hle, (Except.ok.inj h).symm⟩
  | q8 data scales | q4 data scales =>
    obtain ⟨_, ha, h⟩ := bind_eq_ok.mp h
    obtain ⟨run, hrun, h⟩ := bind_eq_ok.mp h
    obtain ⟨runScales, hscales, h⟩ := bind_eq_ok.mp h
    obtain ⟨-, -, rfl⟩ := Buffer.cut_eq_ok.mp hrun
    obtain ⟨-, -, rfl⟩ := Buffer.cut_eq_ok.mp hscales
    exact ⟨checkAligned_eq_ok ha, hle, (Except.ok.inj h).symm⟩

/-- A sub-range is a range of its owner. -/
theorem slice_isRange {e e' : Elements α} (he : e.Scaled) {start len : Nat}
    (h : e.slice start len = .ok e') : e.IsRange start len e' := by
  obtain ⟨ha, hle, rfl⟩ := eq_extract_of_slice h
  exact extract_isRange he ha hle

/-- A sub-range is there just if it starts on a block. -/
theorem slice_eq {e : Elements α} (he : e.WellFormed) {start len : Nat}
    (h : start + len ≤ e.size) : e.slice start len =
      if start % e.dtype.blockSize = 0 then .ok (e.extract start len)
      else .fail (.blockMisaligned start blockSize) := by
  rw [slice, checkRange_of_le h he.fits, ok_bind]
  by_cases ha : start % e.dtype.blockSize = 0
  · rw [if_pos ha]
    cases e with
    | f32 data | f16 data | bf16 data =>
      simp only [Buffer.cut_of_le (Nat.le_add_right ..) h]
      rfl
    | q8 data scales | q4 data scales =>
      have ha : start % blockSize = 0 := ha
      have hs := size_eq_scaleCount he.scaled rfl
      obtain ⟨first, rfl⟩ := Nat.dvd_of_mod_eq_zero ha
      rw [Nat.mul_comm blockSize first] at h ha ⊢
      obtain ⟨-, -, hcut, hcuts, -⟩ := cut_blocks he.scaled (hs ▸ h)
      dsimp only [extract]
      rw [checkAligned_of_mod ha, ok_bind, Nat.mul_div_cancel _ (by decide : 0 < blockSize), hcut,
        ok_bind, hcuts]
      rfl
  · rw [if_neg ha]
    cases e with
    | f32 data | f16 data | bf16 data => exact absurd (Nat.mod_one start) ha
    | q8 data scales | q4 data scales =>
      have hfail : checkAligned start = .fail (.blockMisaligned start blockSize) := if_neg ha
      dsimp only
      rw [hfail]
      rfl

/-- A sub-range reads the cells of its owner, is well formed itself, and is
refused only where it does not start on a block. -/
theorem slice_ensures {e : Elements α} (he : e.WellFormed) {start len : Nat}
    (h : start + len ≤ e.size) :
    Ensures (e.slice start len) fun e' =>
      e'.WellFormed ∧ e'.dtype = e.dtype ∧ len ≤ e'.size ∧
        ∀ i < len, e'.cell? i = e.cell? (start + i) := by
  have hreports : Reports (e.slice start len) := by
    rw [slice_eq he h]
    split <;> trivial
  refine hreports.ensures fun e' he' => ?_
  have hrange := slice_isRange he.scaled he'
  have hwithin := hrange.within
  have hfits := he.fits
  exact ⟨⟨hrange.scaled, by omega⟩, hrange.dtype, hrange.le_size,
    fun i hi => hrange.cell i (Nat.lt_of_lt_of_le hi hrange.le_size)⟩

end Elements

end BlockTensor

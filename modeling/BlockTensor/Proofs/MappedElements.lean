import Mathlib.Data.Nat.Digits.Defs
import BlockTensor.Mapping
import BlockTensor.Proofs.Layout
import BlockTensor.Float.Binary32

/-!
# Mapped elements are those of their bytes

`Mapping.Sound` says where the regions of a mapping lie: inside the image, on
multiples of the size of their words, and scales exactly for a quantized encoding.

* `make_eq_ok`, `make_of_sound`: a mapping is made exactly if it is sound, and
  `make_reports`: it is refused otherwise, if no number is too large for a word.
* `Sound.load_eq`: the regions of a sound mapping can be cut out and cast, and they hold
  the elements `ofRegions`, whose words are the numbers that their bytes spell in base
  256, the least digit first (`word16_eq_spelled`, `word32_eq_spelled`).
* `Sound.elements_eq`: decoding the regions in place gives the same elements, and
  `exists_get` says that each of those counted can be read.
* `make_decodes`: so what is made reads as the owned elements that its regions spell.
-/

namespace BlockTensor

open Outcome

theorem Word.mul_eq_ok {a b n : Nat} : Word.mul a b = .ok n ↔ a * b < bound ∧ a * b = n :=
  check_eq_ok

namespace Mapping

/-- What the addresses of pages are multiples of. -/
def pageSize : Nat := 4096

/-- The regions of a mapping whose image starts at address `base`. -/
structure Sound (base : Nat) (m : Mapping) : Prop where
  scales : m.scalesOffset.isSome = m.dtype.isQuantized
  dataInside : m.dataOffset + m.dtype.dataBytes m.count ≤ m.bytes.size
  scalesInside : ∀ o ∈ m.scalesOffset, o + m.dtype.scaleBytes m.count ≤ m.bytes.size
  dataAligned : (base + m.dataOffset) % wordSize m.dtype = 0
  scalesAligned : ∀ o ∈ m.scalesOffset, (base + o) % 4 = 0

/-- Where the regions end fits in words, as far as it is looked at: first that of the
data, if there are scales exactly for a quantized encoding, then that of the scales, if the
data are inside. -/
structure Fits (m : Mapping) : Prop where
  data : m.scalesOffset.isSome = m.dtype.isQuantized →
    m.dataOffset + m.dtype.dataBytes m.count < Word.bound
  scales : m.scalesOffset.isSome = m.dtype.isQuantized →
    m.dataOffset + m.dtype.dataBytes m.count ≤ m.bytes.size →
      ∀ o ∈ m.scalesOffset, o + m.dtype.scaleBytes m.count < Word.bound

/-- An address in a page-aligned image is aligned as its offset is. -/
theorem add_mod_word {base size : Nat} (hbase : base % pageSize = 0) (hsize : size ∣ 4)
    (offset : Nat) : (base + offset) % size = offset % size := by
  have hpage : base % size = 0 := Nat.mod_eq_zero_of_dvd
    ((hsize.trans (by decide)).trans (Nat.dvd_of_mod_eq_zero hbase))
  rw [Nat.add_mod, hpage, Nat.zero_add, Nat.mod_mod]

theorem wordSize_dvd (d : DType) : wordSize d ∣ 4 := by
  cases d <;> decide

theorem scaleBytes_of_isQuantized {d : DType} (hq : d.isQuantized = true) (n : Nat) :
    d.scaleBytes n = d.blocksFor n * 4 := if_pos hq

/-! ## Checks -/

theorem checkRegion_eq_ok {bytes : Array UInt8} {offset len : Nat} {u : Unit}
    (h : checkRegion bytes offset len = .ok u) : offset + len ≤ bytes.size := by
  obtain ⟨stop, hstop, h⟩ := bind_eq_ok.mp h
  obtain ⟨-, rfl⟩ := Word.check_eq_ok.mp hstop
  split at h
  · assumption
  · exact absurd h (fail_ne_ok _ _)

theorem checkRegion_of_le {bytes : Array UInt8} {offset len : Nat} (h : offset + len ≤ bytes.size)
    (hfits : offset + len < Word.bound) : checkRegion bytes offset len = .ok () := by
  rw [checkRegion, Word.add_of_lt hfits, ok_bind, if_pos h]
  rfl

theorem checkRegion_reports {bytes : Array UInt8} {offset len : Nat}
    (h : offset + len < Word.bound) :
    Ensures (checkRegion bytes offset len) fun _ => offset + len ≤ bytes.size := by
  rw [checkRegion, Word.add_of_lt h, ok_bind]
  split
  · exact ensures_ok ‹_›
  · exact ensures_fail _ _

theorem checkWord_eq_ok {offset size : Nat} {u : Unit} (h : checkWord offset size = .ok u) :
    offset % size = 0 := by
  unfold checkWord at h
  split at h
  · assumption
  · exact absurd h (fail_ne_ok _ _)

theorem checkWord_reports (offset size : Nat) : Ensures (checkWord offset size) fun _ => True := by
  unfold checkWord
  split
  · exact ensures_ok trivial
  · exact ensures_fail _ _

variable {base : Nat}

/-- What is made is a mapping with sound regions. -/
theorem make_eq_ok (hbase : base % pageSize = 0) {bytes : Array UInt8} {d : DType}
    {count dataOffset : Nat} {scalesOffset : Option Nat} {m : Mapping}
    (h : make bytes d count dataOffset scalesOffset = .ok m) :
    m = ⟨bytes, d, count, dataOffset, scalesOffset⟩ ∧ m.Sound base := by
  unfold make at h
  dsimp only at h
  split at h
  · exact absurd h (fail_ne_ok _ _)
  rename_i hmissing
  split at h
  · exact absurd h (fail_ne_ok _ _)
  rename_i hunwanted
  obtain ⟨len, hlen, h⟩ := bind_eq_ok.mp h
  obtain ⟨-, rfl⟩ := Word.mul_eq_ok.mp hlen
  obtain ⟨_, hdata, h⟩ := bind_eq_ok.mp h
  have hdata := checkRegion_eq_ok hdata
  have haligned {u : Unit} (h : checkWord dataOffset (wordSize d) = .ok u) :
      (base + dataOffset) % wordSize d = 0 :=
    (add_mod_word hbase (wordSize_dvd d) _).trans (checkWord_eq_ok h)
  cases scalesOffset with
  | none =>
    obtain ⟨_, hword, h⟩ := bind_eq_ok.mp h
    obtain rfl := Except.ok.inj h
    have hq : d.isQuantized = false := by simpa using hmissing
    exact ⟨rfl, ⟨hq.symm, hdata, nofun, haligned hword, nofun⟩⟩
  | some offset =>
    obtain ⟨scalesLen, hlen, h⟩ := bind_eq_ok.mp h
    obtain ⟨-, rfl⟩ := Word.mul_eq_ok.mp hlen
    obtain ⟨_, hscales, h⟩ := bind_eq_ok.mp h
    obtain ⟨_, hword, h⟩ := bind_eq_ok.mp h
    obtain ⟨_, hscalesWord, h⟩ := bind_eq_ok.mp h
    obtain rfl := Except.ok.inj h
    have hq : d.isQuantized = true := by simpa using hunwanted
    refine ⟨rfl, ⟨hq.symm, hdata, ?_, haligned hword, ?_⟩⟩
    · rintro o ⟨⟩
      exact scaleBytes_of_isQuantized hq count ▸ checkRegion_eq_ok hscales
    · rintro o ⟨⟩
      exact (add_mod_word hbase (by decide) _).trans (checkWord_eq_ok hscalesWord)

/-- Sound regions make a mapping. -/
theorem make_of_sound (hbase : base % pageSize = 0) {m : Mapping} (h : m.Sound base)
    (hfits : m.Fits) : make m.bytes m.dtype m.count m.dataOffset m.scalesOffset = .ok m := by
  obtain ⟨bytes, d, count, dataOffset, scalesOffset⟩ := m
  have hdataFits := hfits.data h.scales
  have hregionFits := hfits.scales h.scales h.dataInside
  obtain ⟨hscales, hdata, hregion, hword, hscalesWord⟩ := h
  dsimp only at *
  rw [add_mod_word hbase (wordSize_dvd d)] at hword
  have hdata : dataOffset + d.blocksFor count * d.unitBytes ≤ bytes.size := hdata
  have hdataFits : dataOffset + d.blocksFor count * d.unitBytes < Word.bound := hdataFits
  have hlen : d.blocksFor count * d.unitBytes < Word.bound := by omega
  cases scalesOffset with
  | none =>
    have hq : d.isQuantized = false := hscales.symm
    simp [make, hq, Word.mul_of_lt hlen, checkRegion_of_le hdata hdataFits, checkWord, hword]
  | some offset =>
    have hq : d.isQuantized = true := hscales.symm
    have hregion := hregion offset rfl
    have hregionFits := hregionFits offset rfl
    have hscalesWord := hscalesWord offset rfl
    rw [scaleBytes_of_isQuantized hq] at hregion hregionFits
    rw [add_mod_word hbase (by decide)] at hscalesWord
    have hscalesLen : d.blocksFor count * 4 < Word.bound := by omega
    simp [make, hq, Word.mul_of_lt hlen, Word.mul_of_lt hscalesLen,
      checkRegion_of_le hdata hdataFits, checkRegion_of_le hregion hregionFits, checkWord, hword,
      hscalesWord]

/-- Regions that are not sound are refused. -/
theorem make_reports {m : Mapping} (h : m.Fits) :
    Reports (make m.bytes m.dtype m.count m.dataOffset m.scalesOffset) := by
  obtain ⟨bytes, d, count, dataOffset, scalesOffset⟩ := m
  unfold make
  dsimp only
  split
  · trivial
  rename_i hmissing
  split
  · trivial
  rename_i hunwanted
  have hwanted : scalesOffset.isSome = d.isQuantized := by
    cases scalesOffset <;> simp_all
  have hdata : dataOffset + d.blocksFor count * d.unitBytes < Word.bound := h.data hwanted
  rw [Word.mul_of_lt (by omega), ok_bind]
  refine ((checkRegion_reports hdata).bind (R := fun _ => True) fun _ _ hinside => ?_).reports
  cases scalesOffset with
  | none => exact (checkWord_reports _ _).bind fun _ _ _ => ensures_ok trivial
  | some offset =>
    have hscales := h.scales hwanted hinside offset rfl
    dsimp only at hscales
    rw [scaleBytes_of_isQuantized hwanted.symm] at hscales
    dsimp only
    rw [Word.mul_of_lt (by omega), ok_bind]
    refine (checkRegion_reports hscales).bind fun _ _ _ => ?_
    refine (checkWord_reports _ _).bind fun _ _ _ => ?_
    exact (checkWord_reports _ _).bind fun _ _ _ => ensures_ok trivial

/-! ## Words -/

/-- The number that run `i` of `size` bytes spells in base 256, its least digit first. -/
def spelled (region : Array UInt8) (size i : Nat) : Nat :=
  Nat.ofDigits 256 ((Buffer.chunk region size i).toList.map UInt8.toNat)

/-- The numbers that a region of words of `size` bytes spells. -/
def numbers (size : Nat) (region : Array UInt8) : Array Nat :=
  (Array.range (region.size / size)).map (spelled region size)

theorem toNat_word16 (bytes : Array UInt8) (i : Nat) :
    (word16 bytes i).toNat = (byte bytes i).toNat + 256 * (byte bytes (i + 1)).toNat := by
  have hlow := (byte bytes i).toNat_lt
  have hhigh := (byte bytes (i + 1)).toNat_lt
  have hshift : ((byte bytes (i + 1)).toUInt16 <<< 8).toNat =
      (byte bytes (i + 1)).toNat <<< 8 := by
    rw [UInt16.toNat_shiftLeft, UInt8.toNat_toUInt16]
    refine Nat.mod_eq_of_lt ?_
    rw [show (8 : UInt16).toNat % 16 = 8 from rfl, Nat.shiftLeft_eq]
    omega
  rw [word16, UInt16.toNat_or, hshift, UInt8.toNat_toUInt16, Nat.or_comm,
    ← Nat.shiftLeft_add_eq_or_of_lt (by omega), Nat.shiftLeft_eq]
  omega

theorem toNat_word32 (bytes : Array UInt8) (i : Nat) :
    (word32 bytes i).toNat = (word16 bytes i).toNat + 65536 * (word16 bytes (i + 2)).toNat := by
  have hlow := (word16 bytes i).toNat_lt
  have hhigh := (word16 bytes (i + 2)).toNat_lt
  have hshift : ((word16 bytes (i + 2)).toUInt32 <<< 16).toNat =
      (word16 bytes (i + 2)).toNat <<< 16 := by
    rw [UInt32.toNat_shiftLeft, UInt16.toNat_toUInt32]
    refine Nat.mod_eq_of_lt ?_
    rw [show (16 : UInt32).toNat % 32 = 16 from rfl, Nat.shiftLeft_eq]
    omega
  rw [word32, UInt32.toNat_or, hshift, UInt16.toNat_toUInt32, Nat.or_comm,
    ← Nat.shiftLeft_add_eq_or_of_lt (by omega), Nat.shiftLeft_eq]
  omega

theorem byte_of_lt {bytes : Array UInt8} {i : Nat} (h : i < bytes.size) :
    byte bytes i = bytes[i] := by
  rw [byte, Array.getD_eq_getD_getElem?, Array.getElem?_eq_getElem h, Option.getD_some]

/-- The bytes of a whole run. -/
theorem toList_chunk {region : Array UInt8} {size i : Nat} (h : size * i + size ≤ region.size) :
    (Buffer.chunk region size i).toList =
      (List.range size).map fun k => byte region (size * i + k) := by
  rw [Nat.mul_comm] at h ⊢
  refine List.ext_getElem ?_ fun k hk _ => ?_
  · rw [Array.length_toList, Buffer.size_chunk, List.length_map, List.length_range]
    omega
  · rw [Array.length_toList, Buffer.size_chunk] at hk
    have hchunk : (Buffer.chunk region size i)[k]? = region[i * size + k]? :=
      Buffer.getElem?_chunk region (by omega)
    rw [Array.getElem?_eq_getElem (by rw [Buffer.size_chunk]; exact hk),
      Array.getElem?_eq_getElem (by omega)] at hchunk
    rw [Array.getElem_toList, List.getElem_map, List.getElem_range, byte_of_lt (by omega)]
    exact Option.some.inj hchunk

theorem spelled_two {region : Array UInt8} {i : Nat} (h : 2 * i + 2 ≤ region.size) :
    spelled region 2 i =
      (byte region (2 * i)).toNat + 256 * (byte region (2 * i + 1)).toNat := by
  rw [spelled, toList_chunk h]
  simp [List.range_succ, Nat.ofDigits]

theorem spelled_four {region : Array UInt8} {i : Nat} (h : 4 * i + 4 ≤ region.size) :
    spelled region 4 i =
      (byte region (4 * i)).toNat + 256 * ((byte region (4 * i + 1)).toNat +
        256 * ((byte region (4 * i + 2)).toNat + 256 * (byte region (4 * i + 3)).toNat)) := by
  rw [spelled, toList_chunk h]
  simp [List.range_succ, Nat.ofDigits]

theorem word16_eq_spelled {region : Array UInt8} {i : Nat} (h : 2 * i + 2 ≤ region.size) :
    word16 region (2 * i) = UInt16.ofNat (spelled region 2 i) := by
  rw [spelled_two h, ← toNat_word16, UInt16.ofNat_toNat]

theorem word32_eq_spelled {region : Array UInt8} {i : Nat} (h : 4 * i + 4 ≤ region.size) :
    word32 region (4 * i) = UInt32.ofNat (spelled region 4 i) := by
  have hword : (word32 region (4 * i)).toNat = spelled region 4 i := by
    rw [spelled_four h, toNat_word32, toNat_word16, toNat_word16, Nat.add_assoc (4 * i) 2 1]
    omega
  rw [← hword, UInt32.ofNat_toNat]

/-- A region of whole words is cast to what its bytes spell. -/
theorem words_eq {β : Type} {size : Nat} {word : Array UInt8 → Nat → β} {ofNat : Nat → β}
    {offset : Nat} {region : Array UInt8} (ha : offset % size = 0) (hr : region.size % size = 0)
    (h : ∀ i, size * i + size ≤ region.size →
      word region (size * i) = ofNat (spelled region size i)) :
    words size word offset region = .ok ((numbers size region).map ofNat) := by
  rw [words, if_pos ⟨ha, hr⟩, numbers, Array.map_map]
  congr 1
  refine Array.map_congr_left fun i hi => h i ?_
  have hi : i < region.size / size := by simpa using hi
  calc size * i + size = size * (i + 1) := (Nat.mul_succ ..).symm
    _ ≤ size * (region.size / size) := Nat.mul_le_mul_left _ hi
    _ ≤ region.size := Nat.mul_div_le ..

/-! ## Elements -/

variable {α : Type} [Scalar α]

/-- Owned elements in encoding `d`, with the data and the scales that two regions spell. -/
def ofRegions (d : DType) (data scales : Array UInt8) : Elements α :=
  let floats (region : Array UInt8) : Array α :=
    (numbers 4 region).map fun n => Scalar.ofBits (UInt32.ofNat n)
  match d with
  | .f32 => .f32 (floats data)
  | .f16 => .f16 ((numbers 2 data).map UInt16.ofNat)
  | .bf16 => .bf16 ((numbers 2 data).map UInt16.ofNat)
  | .q8 => .q8 (data.map (·.toInt8)) (floats scales)
  | .q4 => .q4 data (floats scales)

/-- The bytes of the data. -/
def dataRegion (m : Mapping) : Array UInt8 :=
  m.bytes.extract m.dataOffset (m.dataOffset + m.dtype.dataBytes m.count)

/-- The bytes of the scales. -/
def scalesRegion (m : Mapping) : Array UInt8 :=
  match m.scalesOffset with
  | some o => m.bytes.extract o (o + m.dtype.scaleBytes m.count)
  | none => #[]

theorem region_of_le {bytes : Array UInt8} {offset len : Nat} (h : offset + len ≤ bytes.size)
    (hfits : offset + len < Word.bound) :
    region bytes offset len = .ok (bytes.extract offset (offset + len)) := by
  rw [region, Word.add_of_lt hfits, ok_bind, Buffer.cut_of_le (Nat.le_add_right ..) h]

theorem floats_eq {offset : Nat} {region : Array UInt8} (ha : offset % 4 = 0)
    (hr : region.size % 4 = 0) :
    words 4 float offset region =
      .ok ((numbers 4 region).map fun n => (Scalar.ofBits (UInt32.ofNat n) : α)) :=
  words_eq ha hr fun _ hi => congrArg Scalar.ofBits (word32_eq_spelled hi)

theorem halves_eq {offset : Nat} {region : Array UInt8} (ha : offset % 2 = 0)
    (hr : region.size % 2 = 0) :
    words 2 word16 offset region = .ok ((numbers 2 region).map UInt16.ofNat) :=
  words_eq ha hr fun _ hi => word16_eq_spelled hi

section

variable {m : Mapping} (h : m.Sound base)

include h

theorem Sound.size_dataRegion : m.dataRegion.size = m.dtype.dataBytes m.count :=
  Buffer.size_extract_of_le h.dataInside

theorem Sound.size_scalesRegion : m.scalesRegion.size = m.dtype.scaleBytes m.count := by
  unfold scalesRegion
  cases ho : m.scalesOffset with
  | some o => exact Buffer.size_extract_of_le (h.scalesInside o ho)
  | none =>
    have hq : m.dtype.isQuantized = false := by rw [← h.scales, ho]; rfl
    rw [DType.scaleBytes, if_neg (by rw [hq]; decide), Array.size_empty]

/-- The scales are cut out and cast, if there are any. -/
theorem Sound.loadScales_eq (hbase : base % pageSize = 0) (hfits : m.Fits) :
    m.loadScales =
      .ok ((numbers 4 m.scalesRegion).map fun n => (Scalar.ofBits (UInt32.ofNat n) : α)) := by
  have hsize := h.size_scalesRegion
  cases ho : m.scalesOffset with
  | none =>
    simp [loadScales, scalesRegion, ho, numbers]
  | some o =>
    have hq : m.dtype.isQuantized = true := by rw [← h.scales, ho]; rfl
    have hscalesFits := hfits.scales h.scales h.dataInside o ho
    have haligned := h.scalesAligned o ho
    have hregion : region m.bytes o (m.dtype.scaleBytes m.count) = .ok m.scalesRegion := by
      simp only [scalesRegion, ho]
      exact region_of_le (h.scalesInside o ho) hscalesFits
    rw [add_mod_word hbase (by decide)] at haligned
    rw [scaleBytes_of_isQuantized hq] at hsize hscalesFits hregion
    simp only [loadScales, ho]
    rw [Word.mul_of_lt (by omega), ok_bind, hregion, ok_bind,
      floats_eq haligned (by rw [hsize]; exact Nat.mul_mod_left ..)]

/-- Nothing is out of bounds or unaligned in sound regions. -/
theorem Sound.load_eq (hbase : base % pageSize = 0) (hfits : m.Fits) :
    m.load = .ok (ofRegions m.dtype m.dataRegion m.scalesRegion : Elements α) := by
  have hsize := h.size_dataRegion
  have haligned := h.dataAligned
  rw [add_mod_word hbase (wordSize_dvd _)] at haligned
  have hdata : region m.bytes m.dataOffset (m.dtype.blocksFor m.count * m.dtype.unitBytes) =
      .ok m.dataRegion := region_of_le h.dataInside (hfits.data h.scales)
  have hlen : m.dtype.blocksFor m.count * m.dtype.unitBytes < Word.bound :=
    Nat.lt_of_le_of_lt (Nat.le_add_left ..) (hfits.data h.scales)
  rw [load, Word.mul_of_lt hlen, ok_bind, hdata, ok_bind, h.loadScales_eq hbase hfits, ok_bind]
  cases hd : m.dtype with
  | f32 =>
    rw [hd] at haligned hsize
    dsimp only
    rw [floats_eq haligned (by rw [hsize]; exact Nat.mul_mod_left ..)]
    rfl
  | f16 | bf16 =>
    rw [hd] at haligned hsize
    dsimp only
    rw [halves_eq haligned (by rw [hsize]; exact Nat.mul_mod_left ..)]
    rfl
  | q8 | q4 => rfl

end

/-! ## Decoding in place -/

theorem byte_extract {bytes : Array UInt8} {offset len j : Nat} (h : offset + len ≤ bytes.size)
    (hj : j < len) : byte (bytes.extract offset (offset + len)) j = byte bytes (offset + j) := by
  rw [byte, byte, Array.getD_eq_getD_getElem?, Array.getD_eq_getD_getElem?,
    Buffer.getElem?_extract_of_lt h (by omega)]

theorem word16_extract {bytes : Array UInt8} {offset len j : Nat} (h : offset + len ≤ bytes.size)
    (hj : j + 2 ≤ len) :
    word16 (bytes.extract offset (offset + len)) j = word16 bytes (offset + j) := by
  rw [word16, word16, byte_extract h (by omega), byte_extract h (by omega), Nat.add_assoc]

theorem word32_extract {bytes : Array UInt8} {offset len j : Nat} (h : offset + len ≤ bytes.size)
    (hj : j + 4 ≤ len) :
    word32 (bytes.extract offset (offset + len)) j = word32 bytes (offset + j) := by
  rw [word32, word32, word16_extract h (by omega), word16_extract h (by omega), Nat.add_assoc]

section

variable {m : Mapping} {offset n : Nat}

theorem data8_eq (h : offset + n ≤ m.bytes.size) :
    m.data8 offset n = m.bytes.extract offset (offset + n) := by
  refine Array.ext ?_ fun i hi hi' => ?_
  · rw [Buffer.size_extract_of_le h, data8, Array.size_map, Array.size_range]
  · rw [Buffer.size_extract_of_le h] at hi'
    simp only [data8, Array.getElem_map, Array.getElem_range, Array.getElem_extract]
    exact byte_of_lt (by omega)

/-- Words read in place are what their bytes spell. -/
theorem map_range_eq_numbers {β : Type} {size : Nat} {f : Nat → β} {ofNat : Nat → β}
    {region : Array UInt8} (hsize : 0 < size) (hr : region.size = n * size)
    (h : ∀ i, size * i + size ≤ region.size → f i = ofNat (spelled region size i)) :
    (Array.range n).map f = (numbers size region).map ofNat := by
  rw [numbers, hr, Nat.mul_div_cancel _ hsize, Array.map_map]
  refine Array.map_congr_left fun i hi => h i ?_
  have hi : i < n := by simpa using hi
  calc size * i + size = (i + 1) * size := by rw [Nat.mul_comm, Nat.succ_mul]
    _ ≤ n * size := Nat.mul_le_mul_right _ hi
    _ = region.size := hr.symm

theorem data16_eq (h : m.dataOffset + m.count * 2 ≤ m.bytes.size) :
    m.data16 =
      (numbers 2 (m.bytes.extract m.dataOffset (m.dataOffset + m.count * 2))).map UInt16.ofNat := by
  have hr := Buffer.size_extract_of_le h
  refine map_range_eq_numbers (by decide) hr fun i hi => ?_
  rw [← word16_eq_spelled hi, word16_extract h (hr ▸ hi)]

theorem data32_eq (h : offset + n * 4 ≤ m.bytes.size) :
    m.data32 offset n = (numbers 4 (m.bytes.extract offset (offset + n * 4))).map fun k =>
      (Scalar.ofBits (UInt32.ofNat k) : α) := by
  have hr := Buffer.size_extract_of_le h
  refine map_range_eq_numbers (by decide) hr fun i hi => ?_
  rw [← word32_eq_spelled hi, word32_extract h (hr ▸ hi)]

end

theorem Sound.scales_eq {m : Mapping} (h : m.Sound base) (hq : m.dtype.isQuantized = true) :
    (m.scales : Array α) =
      (numbers 4 m.scalesRegion).map fun n => Scalar.ofBits (UInt32.ofNat n) := by
  obtain ⟨o, ho⟩ : ∃ o, m.scalesOffset = some o :=
    Option.isSome_iff_exists.mp (h.scales.trans hq)
  have hinside := h.scalesInside o ho
  rw [scaleBytes_of_isQuantized hq] at hinside
  unfold Mapping.scales
  simp only [scalesRegion, ho, Option.getD_some, scaleBytes_of_isQuantized hq]
  exact data32_eq hinside

/-- Decoding the regions in place gives what they spell. -/
theorem Sound.elements_eq {m : Mapping} (h : m.Sound base) :
    (m.elements : Elements α) = ofRegions m.dtype m.dataRegion m.scalesRegion := by
  have hinside := h.dataInside
  unfold dataRegion
  cases hd : m.dtype <;> rw [hd] at hinside <;> rw [elements, hd]
  case f32 => exact congrArg Elements.f32 (data32_eq hinside)
  case f16 => exact congrArg Elements.f16 (data16_eq hinside)
  case bf16 => exact congrArg Elements.bf16 (data16_eq hinside)
  case q8 =>
    dsimp only
    rw [h.scales_eq (by rw [hd]; rfl)]
    exact congrArg (fun data => Elements.q8 (data.map (·.toInt8)) _) (data8_eq hinside)
  case q4 =>
    dsimp only
    rw [h.scales_eq (by rw [hd]; rfl)]
    exact congrArg (Elements.q4 · _) (data8_eq hinside)

theorem elements_layout (m : Mapping) :
    (m.elements : Elements α).layout = (Elements.zeros m.dtype m.count : Elements α).layout := by
  unfold elements
  split <;>
    simp_all [Elements.layout, Elements.zeros, data32, data16, data8, scales, DType.blocksFor,
      DType.isQuantized]

theorem size_elements (m : Mapping) :
    (m.elements : Elements α).size = m.dtype.blocksFor m.count * m.dtype.blockSize :=
  (Elements.size_eq_of_layout m.elements_layout).trans (Elements.size_zeros ..)

/-- With whole blocks and a scale to each, every element can be read. -/
theorem exists_get (α : Type) [Scalar α] (m : Mapping) {i : Nat} (hi : i < m.count) :
    ∃ v : α, m.elements.get i = .ok v := by
  have hscaled : (m.elements : Elements α).Scaled :=
    (Elements.scaled_zeros m.dtype m.count).of_layout m.elements_layout
  refine Elements.exists_get hscaled ?_
  rw [size_elements]
  exact Nat.lt_of_lt_of_le hi (DType.blocksFor_le ..)

/-- A mapping in an image that starts on a page is made exactly if its regions are sound,
and refused otherwise. The elements of one that is made can be cut out and cast, they are
whole blocks, and those it counts are the owned elements that its regions spell. -/
theorem make_decodes (hbase : base % pageSize = 0) {m : Mapping} (hfits : m.Fits) :
    let made := make m.bytes m.dtype m.count m.dataOffset m.scalesOffset
    Reports made ∧ (made = .ok m ↔ m.Sound base) ∧ ∀ m', made = .ok m' →
      m' = m ∧ m.load = .ok (m.elements : Elements α) ∧
      (m.elements : Elements α).size = m.dtype.blocksFor m.count * m.dtype.blockSize ∧
      ∀ i < m.count, ∃ v : α, m.elements.get i = .ok v ∧
        (ofRegions m.dtype m.dataRegion m.scalesRegion).get i = .ok v := by
  refine ⟨make_reports hfits,
    ⟨fun h => (make_eq_ok hbase h).2, fun h => make_of_sound hbase h hfits⟩, fun m' hm' => ?_⟩
  obtain ⟨rfl, hsound⟩ := make_eq_ok hbase hm'
  have helements := hsound.elements_eq (α := α)
  refine ⟨rfl, helements ▸ hsound.load_eq hbase hfits, size_elements _, fun i hi => ?_⟩
  obtain ⟨v, hv⟩ := exists_get α _ hi
  exact ⟨v, hv, helements ▸ hv⟩

/-- An image with two blocks of nibbles, of which 33 count, behind their scales and one
byte. -/
def nibbles : Mapping := ⟨.replicate 48 0x88, .q4, 33, 9, some 0⟩

theorem make_decodes_nibbles :
    4096 % pageSize = 0 ∧ nibbles.Fits ∧ nibbles.Sound 4096 ∧
      nibbles.load = .ok (nibbles.elements : Elements Binary32) ∧
      ∃ v : Binary32, nibbles.elements.get 32 = .ok v ∧
        (ofRegions .q4 nibbles.dataRegion nibbles.scalesRegion).get 32 = .ok v := by
  have hfits : nibbles.Fits := ⟨fun _ => by decide, by rintro - - o ⟨⟩; decide⟩
  have hsound : nibbles.Sound 4096 :=
    ⟨rfl, by decide, by rintro o ⟨⟩; decide, by decide, by rintro o ⟨⟩; decide⟩
  have hbase : 4096 % pageSize = 0 := rfl
  obtain ⟨-, hmade, hdecodes⟩ := make_decodes (α := Binary32) hbase hfits
  obtain ⟨-, hload, -, hget⟩ := hdecodes nibbles (hmade.mpr hsound)
  exact ⟨hbase, hfits, hsound, hload, hget 32 (by decide)⟩

end Mapping

end BlockTensor

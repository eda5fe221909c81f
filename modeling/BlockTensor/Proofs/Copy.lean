import BlockTensor.Proofs.Segment

/-!
# Copies of encoded elements

Elements are copied as they are stored. What is cut out is `Elements.extract`, by
`take` and by the parts of a segment, and what is put back is `Elements.put`,
cell by cell (`cell?_put`):

* `copyRaw_cases`: a copy puts the blocks of a range of its source in their place, if
  the ranges fit (`CopyFits`), and is refused before anything is written if not; only
  for want of scales does it stop in between, which cannot be if there is one to each
  block (`copyRaw_eq`);
* `cell?_copy`: it changes the cells of its range to those of the source;
* `Segment.ranges_divide`: the parts of a segment that is a range of an owner are
  ranges of the owner.
-/

namespace BlockTensor

open Outcome Update

variable {α : Type}

namespace Elements

/-- Whole blocks end with their last cell. -/
theorem cell?_eq_none {e : Elements α} (he : e.Scaled) {i : Nat} (hi : e.size ≤ i) :
    e.cell? i = none := by
  cases e with
  | f32 data | f16 data | bf16 data => rw [cell?, Array.getElem?_eq_none hi, Option.map_none]
  | q8 data scales => rw [cell?, Array.getElem?_eq_none hi, Option.bind_none]
  | q4 data scales =>
    have hs := size_eq_of_scaled_q4 he
    have hbyte : data.size ≤ Q4.byteOf i := by
      simp only [size, Q4.byteOf, Q4.slot, blockSize, q4BlockBytes] at *
      omega
    rw [cell?, Array.getElem?_eq_none hbyte, Option.bind_none]

/-- What is put in its place has its cells there. -/
theorem cell?_put {e new : Elements α} {start i : Nat} (he : e.Scaled) (hnew : new.Scaled)
    (hd : new.dtype = e.dtype) (ha : start % e.dtype.blockSize = 0)
    (hle : start + new.size ≤ e.size) (hi : i < new.size) :
    (e.put ⟨start, new⟩).cell? (start + i) = new.cell? i := by
  cases e with
  | f32 data | f16 data | bf16 data =>
    cases new <;> cases hd
    simp only [put, cell?]
    rw [Buffer.getElem?_blit_add hle hi]
  | q8 data scales =>
    cases new with
    | q8 run runScales =>
      have hs := size_eq_of_scaled_q8 he
      have hr := size_eq_of_scaled_q8 hnew
      have ha : start % blockSize = 0 := ha
      have hscale : i / blockSize < runScales.size ∧
          start / blockSize + runScales.size ≤ scales.size := by
        simp only [size, blockSize] at *
        omega
      simp only [put, cell?]
      rw [Buffer.getElem?_blit_add hle hi, Segment.add_div_block ha,
        Buffer.getElem?_blit_add hscale.2 hscale.1]
    | _ => cases hd
  | q4 data scales =>
    cases new with
    | q4 bytes runScales =>
      have hs := size_eq_of_scaled_q4 he
      have hr := size_eq_of_scaled_q4 hnew
      have ha : start % blockSize = 0 := ha
      have hscale : i / blockSize < runScales.size ∧
          start / blockSize + runScales.size ≤ scales.size := by
        simp only [size, blockSize, q4BlockBytes] at *
        omega
      have hbyte : Q4.byteOf i < bytes.size ∧ start / 2 + bytes.size ≤ data.size := by
        simp only [size, Q4.byteOf, Q4.slot, blockSize, q4BlockBytes] at *
        omega
      simp only [put, cell?]
      rw [byteOf_half_add ha, Buffer.getElem?_blit_add hbyte.2 hbyte.1, Segment.add_div_block ha,
        Buffer.getElem?_blit_add hscale.2 hscale.1]
      simp only [nibble_add ha]
    | _ => cases hd

/-- The cells outside are those that were there. -/
theorem cell?_put_outside {e new : Elements α} {start i : Nat} (he : e.Scaled) (hnew : new.Scaled)
    (hd : new.dtype = e.dtype) (ha : start % e.dtype.blockSize = 0)
    (hi : i < start ∨ start + new.size ≤ i) :
    (e.put ⟨start, new⟩).cell? i = e.cell? i := by
  cases e with
  | f32 data | f16 data | bf16 data =>
    cases new <;> cases hd
    simp only [put, cell?]
    rw [Segment.blit_outside hi]
  | q8 data scales =>
    cases new with
    | q8 run runScales =>
      have hs := size_eq_of_scaled_q8 he
      have hr := size_eq_of_scaled_q8 hnew
      have ha : start % blockSize = 0 := ha
      have hscale : i / blockSize < start / blockSize ∨
          start / blockSize + runScales.size ≤ i / blockSize := by
        simp only [size, blockSize] at *
        omega
      simp only [put, cell?]
      rw [Segment.blit_outside hi, Segment.blit_outside hscale]
    | _ => cases hd
  | q4 data scales =>
    cases new with
    | q4 bytes runScales =>
      have hs := size_eq_of_scaled_q4 he
      have hr := size_eq_of_scaled_q4 hnew
      have ha : start % blockSize = 0 := ha
      have hscale : i / blockSize < start / blockSize ∨
          start / blockSize + runScales.size ≤ i / blockSize := by
        simp only [size, blockSize, q4BlockBytes] at *
        omega
      have hbyte : Q4.byteOf i < start / 2 ∨ start / 2 + bytes.size ≤ Q4.byteOf i := by
        simp only [size, Q4.byteOf, Q4.slot, blockSize, q4BlockBytes] at *
        omega
      simp only [put, cell?]
      rw [Segment.blit_outside hbyte, Segment.blit_outside hscale]
    | _ => cases hd

/-- The first elements of some are cut out on blocks. -/
theorem eq_extract_of_take {e e' : Elements α} {n : Nat} (h : e.take n = .ok e') :
    n ≤ e.size ∧ e' = e.extract 0 n := by
  cases e with
  | f32 data | f16 data | bf16 data =>
    obtain ⟨run, hrun, h⟩ := bind_eq_ok.mp h
    obtain ⟨-, hle, rfl⟩ := Buffer.cut_eq_ok.mp hrun
    rw [extract, Nat.zero_add]
    exact ⟨hle, (Except.ok.inj h).symm⟩
  | q8 data scales =>
    obtain ⟨run, hrun, h⟩ := bind_eq_ok.mp h
    obtain ⟨runScales, hscales, h⟩ := bind_eq_ok.mp h
    obtain ⟨-, hle, rfl⟩ := Buffer.cut_eq_ok.mp hrun
    obtain ⟨-, -, rfl⟩ := Buffer.cut_eq_ok.mp hscales
    dsimp only [extract]
    rw [Nat.zero_add, Nat.zero_div, Nat.zero_mul]
    refine ⟨?_, (Except.ok.inj h).symm⟩
    simp only [size, blocksOf, blockSize] at *
    omega
  | q4 data scales =>
    obtain ⟨run, hrun, h⟩ := bind_eq_ok.mp h
    obtain ⟨runScales, hscales, h⟩ := bind_eq_ok.mp h
    obtain ⟨-, hle, rfl⟩ := Buffer.cut_eq_ok.mp hrun
    obtain ⟨-, -, rfl⟩ := Buffer.cut_eq_ok.mp hscales
    dsimp only [extract]
    rw [Nat.zero_add, Nat.zero_div, Nat.zero_mul]
    refine ⟨?_, (Except.ok.inj h).symm⟩
    simp only [size, blocksOf, blockSize, q4BlockBytes] at *
    omega

/-! ## Copies -/

theorem checkSpan_eq_ok {start source len : Nat} {u : Unit}
    (h : checkSpan start source len = .ok u) :
    start % blockSize = 0 ∧ source % blockSize = 0 ∧ (start + len) % blockSize = 0 := by
  obtain ⟨_, hstart, h⟩ := bind_eq_ok.mp h
  obtain ⟨_, hsource, hstop⟩ := bind_eq_ok.mp h
  exact ⟨checkAligned_eq_ok hstart, checkAligned_eq_ok hsource, checkAligned_eq_ok hstop⟩

/-- Ranges of one length that start on blocks end on blocks together. -/
theorem source_stop {start source len : Nat} (hstart : start % blockSize = 0)
    (hsource : source % blockSize = 0) (hstop : (start + len) % blockSize = 0) :
    (source + len) % blockSize = 0 := by
  simp only [blockSize] at *
  omega

/-- Ranges of `len` elements between which a copy moves whole blocks. -/
structure CopyFits (e : Elements α) (start : Nat) (src : Elements α) (source len : Nat) :
    Prop where
  dtype : src.dtype = e.dtype
  target : start + len ≤ e.size
  within : source + len ≤ src.size
  targetStart : start % e.dtype.blockSize = 0
  sourceStart : source % e.dtype.blockSize = 0
  targetStop : (start + len) % e.dtype.blockSize = 0

/-- What is checked before a copy writes. -/
def copyChecks (start : Nat) (src : Elements α) (source len : Nat) (e : Elements α) :
    Outcome Unit := do
  if src.dtype ≠ e.dtype then .fail (.dtypeMismatch e.dtype src.dtype) else pure ()
  checkRange start len e.size
  checkRange source len src.size
  if e.dtype.isQuantized then checkSpan start source len else pure ()

/-- There are scales for the blocks of both ranges, if the encoding has scales. -/
def CopyScaled (e : Elements α) (start : Nat) (src : Elements α) (source len : Nat) : Prop :=
  e.dtype.isQuantized → start / blockSize + len / blockSize ≤ e.scaleCount ∧
    source / blockSize + len / blockSize ≤ src.scaleCount

theorem copyScales_cases (scales src : Array α) (start source n : Nat) :
    (start + n ≤ scales.size ∧ source + n ≤ src.size) ∧
        copyScales scales start src source n =
          .ok (Buffer.blit scales start (src.extract source (source + n))) ∨
      ¬(start + n ≤ scales.size ∧ source + n ≤ src.size) ∧
        copyScales scales start src source n = .stop .outOfBounds := by
  unfold copyScales Buffer.cut
  by_cases h : start + n ≤ scales.size
  · by_cases h' : source + n ≤ src.size
    · exact .inl ⟨⟨h, h'⟩, by rw [if_pos ⟨by omega, h⟩, if_pos ⟨by omega, h'⟩]; rfl⟩
    · exact .inr ⟨fun hle => h' hle.2, by
        rw [if_pos ⟨by omega, h⟩, if_neg fun hle => h' hle.2]; rfl⟩
  · exact .inr ⟨fun hle => h hle.1, by rw [if_neg fun hle => h hle.2]; rfl⟩

/-- Where whole blocks end. -/
theorem blocksOf_stop {start len : Nat} (hstart : start % blockSize = 0)
    (hstop : (start + len) % blockSize = 0) :
    blocksOf (start + len) = start / blockSize + len / blockSize ∧
      blocksOf (start + len) * blockSize = start + len := by
  simp only [blocksOf, blockSize] at *
  omega

section

variable {source len : Nat} (hsource : source % blockSize = 0)
  (hstop : (source + len) % blockSize = 0)

include hsource hstop

/-- Whole blocks are cut out as they are. -/
theorem extract_q8 (data : Array Int8) (scales : Array α) :
    (q8 data scales).extract source len = q8 (data.extract source (source + len))
      (scales.extract (source / blockSize) (source / blockSize + len / blockSize)) := by
  obtain ⟨hlast, hend⟩ := blocksOf_stop hsource hstop
  dsimp only [extract]
  rw [hend, hlast, Nat.div_mul_cancel (Nat.dvd_of_mod_eq_zero hsource)]

theorem extract_q4 (data : Array UInt8) (scales : Array α) :
    (q4 data scales).extract source len = q4 (data.extract (source / 2) ((source + len) / 2))
      (scales.extract (source / blockSize) (source / blockSize + len / blockSize)) := by
  obtain ⟨hlast, hend⟩ := blocksOf_stop hsource hstop
  have hfirst : source / blockSize * q4BlockBytes = source / 2 := by
    simp only [blockSize, q4BlockBytes] at *
    omega
  have hbytes : blocksOf (source + len) * q4BlockBytes = (source + len) / 2 := by
    simp only [blockSize, q4BlockBytes] at *
    omega
  dsimp only [extract]
  rw [hfirst, hbytes, hlast]

end

/-- A copy is refused before it writes, or puts the blocks of its source in their
place, or stops in between for want of scales. -/
theorem copyRaw_cases (e src : Elements α) (start source len : Nat) :
    (∃ f, copyChecks start src source len e = .error f ∧
        copyRaw start src source len e = .error f e) ∨
      copyChecks start src source len e = .ok () ∧ e.CopyFits start src source len ∧
        (e.CopyScaled start src source len ∧
            copyRaw start src source len e = .ok () (e.put ⟨start, src.extract source len⟩) ∨
          ¬e.CopyScaled start src source len ∧
            ∃ e', copyRaw start src source len e = .error (.abort .outOfBounds) e') := by
  unfold copyRaw
  dsimp only
  split
  · exact .inl ⟨_, ‹_›, rfl⟩
  rename_i hready
  refine .inr ⟨hready, ?_⟩
  split at hready
  · exact absurd hready (fail_ne_ok _ _)
  rename_i hd
  have hd : src.dtype = e.dtype := Classical.not_not.mp hd
  obtain ⟨_, htarget, hchecks⟩ := bind_eq_ok.mp hready
  obtain ⟨htarget, -⟩ := checkRange_eq_ok htarget
  obtain ⟨_, hwithin, hspan⟩ := bind_eq_ok.mp hchecks
  obtain ⟨hwithin, -⟩ := checkRange_eq_ok hwithin
  cases e with
  | f32 data | f16 data | bf16 data =>
    cases src <;> cases hd
    exact ⟨⟨rfl, htarget, hwithin, Nat.mod_one _, Nat.mod_one _, Nat.mod_one _⟩, .inl ⟨nofun, rfl⟩⟩
  | q8 data scales =>
    cases src with
    | q8 run runScales =>
      obtain ⟨hstart, hsource, hstop⟩ := checkSpan_eq_ok hspan
      refine ⟨⟨rfl, htarget, hwithin, hstart, hsource, hstop⟩, ?_⟩
      rw [extract_q8 hsource (source_stop hstart hsource hstop)]
      dsimp only [put]
      obtain ⟨hle, hscales⟩ | ⟨hle, hscales⟩ := copyScales_cases scales runScales
        (start / blockSize) (source / blockSize) (len / blockSize)
      · exact .inl ⟨fun _ => hle, by rw [hscales]⟩
      · exact .inr ⟨fun h => hle (h rfl), _, by rw [hscales]; rfl⟩
    | _ => cases hd
  | q4 data scales =>
    cases src with
    | q4 bytes runScales =>
      obtain ⟨hstart, hsource, hstop⟩ := checkSpan_eq_ok hspan
      refine ⟨⟨rfl, htarget, hwithin, hstart, hsource, hstop⟩, ?_⟩
      rw [extract_q4 hsource (source_stop hstart hsource hstop)]
      dsimp only [put]
      obtain ⟨hle, hscales⟩ | ⟨hle, hscales⟩ := copyScales_cases scales runScales
        (start / blockSize) (source / blockSize) (len / blockSize)
      · exact .inl ⟨fun _ => hle, by rw [hscales]⟩
      · exact .inr ⟨fun h => hle (h rfl), _, by rw [hscales]; rfl⟩
    | _ => cases hd

/-- Elements with a scale to each block have scales for any copy that fits. -/
theorem CopyFits.scaled {e src : Elements α} (he : e.Scaled) (hs : src.Scaled)
    {start source len : Nat} (h : e.CopyFits start src source len) :
    e.CopyScaled start src source len := fun hq => by
  obtain ⟨hd, htarget, hwithin, hstart, hsource, -⟩ := h
  have hblock : e.dtype.blockSize = blockSize := if_pos hq
  rw [hblock] at hstart hsource
  rw [size_eq_scaleCount he hq] at htarget
  rw [size_eq_scaleCount hs (hd ▸ hq)] at hwithin
  simp only [blockSize] at *
  omega

/-- A copy between elements with a scale to each block is refused before it writes, or
puts the blocks of its source in their place. -/
theorem copyRaw_eq {e src : Elements α} (he : e.Scaled) (hs : src.Scaled)
    (start source len : Nat) :
    (∃ f, copyChecks start src source len e = .error f ∧
        copyRaw start src source len e = .error f e) ∨
      copyChecks start src source len e = .ok () ∧ e.CopyFits start src source len ∧
        copyRaw start src source len e = .ok () (e.put ⟨start, src.extract source len⟩) := by
  obtain herror | ⟨hchecks, hfits, ⟨-, hok⟩ | ⟨hscales, -⟩⟩ := copyRaw_cases e src start source len
  · exact .inl herror
  · exact .inr ⟨hchecks, hfits, hok⟩
  · exact absurd (hfits.scaled he hs) hscales

/-- A copy changes the cells of its range to those of the source. -/
theorem cell?_copy {e src : Elements α} (he : e.Scaled) (hs : src.Scaled)
    {start source len : Nat} (h : e.CopyFits start src source len) (i : Nat) :
    (e.put ⟨start, src.extract source len⟩).cell? i =
      if start ≤ i ∧ i < start + len then src.cell? (source + (i - start)) else e.cell? i := by
  have hrange := extract_isRange hs (h.dtype ▸ h.sourceStart) h.within
  have hd := hrange.dtype.trans h.dtype
  have hsize : (src.extract source len).size = len := by
    have hmod : len % e.dtype.blockSize = 0 := by
      have hadd := h.targetStop
      rwa [Nat.add_mod, h.targetStart, Nat.zero_add, Nat.mod_mod] at hadd
    rw [hrange.size, h.dtype]
    exact DType.blocksFor_mul_of_mod hmod
  have htarget := h.target
  split
  · rename_i hi
    obtain ⟨j, rfl⟩ := Nat.exists_eq_add_of_le hi.1
    rw [cell?_put he hrange.scaled hd h.targetStart (by omega) (by omega),
      hrange.cell j (by omega), Nat.add_sub_cancel_left]
  · exact cell?_put_outside he hrange.scaled hd h.targetStart (by omega)

end Elements

open Elements

namespace Segment

/-- A part of a segment is cut out on blocks. -/
theorem eq_extract_of_narrow {s s' : Segment α} {start len : Nat}
    (h : s.narrow start len = .ok s') :
    start % s.elems.dtype.blockSize = 0 ∧ start + len ≤ s.elems.size ∧
      s' = ⟨s.start + start, s.elems.extract start len⟩ := by
  obtain ⟨_, hrange, -⟩ := bind_eq_ok.mp h
  obtain ⟨hle, -⟩ := checkRange_eq_ok hrange
  have h := part_of_narrow h
  obtain ⟨lo, e⟩ := s
  dsimp only [part] at h
  cases e with
  | f32 data | f16 data | bf16 data =>
    obtain ⟨run, hrun, h⟩ := bind_eq_ok.mp h
    obtain ⟨-, -, rfl⟩ := Buffer.cut_eq_ok.mp hrun
    exact ⟨Nat.mod_one _, hle, (Except.ok.inj h).symm⟩
  | q8 data scales | q4 data scales =>
    obtain ⟨_, ha, h⟩ := bind_eq_ok.mp h
    obtain ⟨run, hrun, h⟩ := bind_eq_ok.mp h
    obtain ⟨runScales, hscales, h⟩ := bind_eq_ok.mp h
    obtain ⟨-, -, rfl⟩ := Buffer.cut_eq_ok.mp hrun
    obtain ⟨-, -, rfl⟩ := Buffer.cut_eq_ok.mp hscales
    exact ⟨checkAligned_eq_ok ha, hle, (Except.ok.inj h).symm⟩

theorem cutAt_eq_ok {β : Type} {a b c : Array β} {mid : Nat} (h : cutAt a mid = .ok (b, c)) :
    b = a.extract 0 mid ∧ c = a.extract mid a.size := by
  obtain ⟨_, hb, h⟩ := bind_eq_ok.mp h
  obtain ⟨_, hc, h⟩ := bind_eq_ok.mp h
  obtain ⟨rfl, rfl⟩ := Prod.mk.inj (Except.ok.inj h)
  exact ⟨(Buffer.cut_eq_ok.mp hb).2.2, (Buffer.cut_eq_ok.mp hc).2.2⟩

/-- So are the two parts of a segment of whole blocks. -/
theorem eq_extract_of_splitAt {s a b : Segment α} {mid : Nat} (hs : s.elems.Scaled)
    (h : s.splitAt mid = .ok (a, b)) :
    mid % s.elems.dtype.blockSize = 0 ∧ mid ≤ s.elems.size ∧
      a = ⟨s.start, s.elems.extract 0 mid⟩ ∧
      b = ⟨s.start + mid, s.elems.extract mid (s.elems.size - mid)⟩ := by
  obtain ⟨_, hrange, h⟩ := bind_eq_ok.mp h
  obtain ⟨hle, -⟩ := checkRange_eq_ok hrange
  rw [Nat.zero_add] at hle
  obtain ⟨lo, e⟩ := s
  dsimp only at h
  cases e with
  | f32 data | f16 data | bf16 data =>
    obtain ⟨⟨x, y⟩, hc, h⟩ := bind_eq_ok.mp h
    obtain ⟨rfl, rfl⟩ := Prod.mk.inj (Except.ok.inj h)
    obtain ⟨rfl, rfl⟩ := cutAt_eq_ok hc
    refine ⟨Nat.mod_one _, hle, ?_, ?_⟩
    · simp only [extract, Nat.zero_add]
    · have hstop : mid + (data.size - mid) = data.size := Nat.add_sub_cancel' hle
      simp only [extract, Elements.size, hstop]
  | q8 data scales =>
    obtain ⟨_, ha, h⟩ := bind_eq_ok.mp h
    have ha := checkAligned_eq_ok ha
    obtain ⟨⟨x, y⟩, hc, h⟩ := bind_eq_ok.mp h
    obtain ⟨⟨sx, sy⟩, hcs, h⟩ := bind_eq_ok.mp h
    obtain ⟨rfl, rfl⟩ := Prod.mk.inj (Except.ok.inj h)
    obtain ⟨rfl, rfl⟩ := cutAt_eq_ok hc
    obtain ⟨rfl, rfl⟩ := cutAt_eq_ok hcs
    have hs := size_eq_of_scaled_q8 hs
    have hmid : mid / blockSize * blockSize = mid := Nat.div_mul_cancel (Nat.dvd_of_mod_eq_zero ha)
    have hfirst : blocksOf mid = mid / blockSize := blocksOf_add ha 0
    have hstop : mid + (data.size - mid) = data.size := Nat.add_sub_cancel' hle
    have hlast : blocksOf data.size = scales.size := by
      simp only [blocksOf, blockSize] at *
      omega
    refine ⟨ha, hle, ?_, ?_⟩
    · simp only [extract, Nat.zero_add, Nat.zero_div, Nat.zero_mul, hfirst, hmid]
    · simp only [extract, Elements.size, hstop, hlast, hmid, ← hs]
  | q4 data scales =>
    obtain ⟨_, ha, h⟩ := bind_eq_ok.mp h
    have ha := checkAligned_eq_ok ha
    obtain ⟨⟨x, y⟩, hc, h⟩ := bind_eq_ok.mp h
    obtain ⟨⟨sx, sy⟩, hcs, h⟩ := bind_eq_ok.mp h
    obtain ⟨rfl, rfl⟩ := Prod.mk.inj (Except.ok.inj h)
    obtain ⟨rfl, rfl⟩ := cutAt_eq_ok hc
    obtain ⟨rfl, rfl⟩ := cutAt_eq_ok hcs
    have hs := size_eq_of_scaled_q4 hs
    have hmid : mid / blockSize * q4BlockBytes = mid / 2 := by
      simp only [blockSize, q4BlockBytes] at *
      omega
    have hfirst : blocksOf mid = mid / blockSize := blocksOf_add ha 0
    have hstop : mid + (data.size * 2 - mid) = data.size * 2 := Nat.add_sub_cancel' hle
    have hlast : blocksOf (data.size * 2) = scales.size := by
      simp only [blocksOf, blockSize, q4BlockBytes] at *
      omega
    refine ⟨ha, hle, ?_, ?_⟩
    · simp only [extract, Nat.zero_add, Nat.zero_div, Nat.zero_mul, hfirst, hmid]
    · simp only [extract, Elements.size, hstop, hlast, hmid, ← hs]

/-- What is left after the first elements takes the blocks that are left. -/
theorem blocksFor_sub {d : DType} {count mid : Nat} (hmid : mid % d.blockSize = 0) :
    d.blocksFor (d.blocksFor count * d.blockSize - mid) = d.blocksFor (count - mid) := by
  cases d <;> simp_all [DType.blocksFor, DType.blockSize, DType.isQuantized, blocksOf, blockSize]
    <;> omega

/-- The parts of a segment that is a range of an owner are ranges of it. -/
theorem ranges_divide (owner : Elements α) :
    Divides fun s count => owner.IsRange s.start count s.elems where
  narrow := by
    intro s s' count start len hs _ h
    obtain ⟨ha, hle, rfl⟩ := eq_extract_of_narrow h
    exact ⟨rfl, hs.trans (extract_isRange hs.scaled ha hle)⟩
  splitAt := by
    intro s a b count mid hs hmid h
    obtain ⟨ha, hle, rfl, rfl⟩ := eq_extract_of_splitAt hs.scaled h
    have hfirst := extract_isRange hs.scaled (Nat.zero_mod _)
      (show 0 + mid ≤ s.elems.size by rwa [Nat.zero_add])
    have hrest := extract_isRange hs.scaled ha
      (show mid + (s.elems.size - mid) ≤ s.elems.size by omega)
    refine ⟨rfl, hs.trans hfirst, rfl, (hs.trans hrest).of_size ?_⟩
    rw [hrest.size, hs.size, hs.dtype]
    exact congrArg (· * owner.dtype.blockSize) (blocksFor_sub (hs.dtype ▸ ha))

end Segment

end BlockTensor

import BlockTensor.Proofs.Allocation
import BlockTensor.Proofs.Copy

/-!
# Copies into tensors

What is stored for an element is a pattern (`Elements.pattern?`) and, in a quantized
encoding, the scale of its block (`Elements.scale?`); together they are its cell
(`cell?_eq`).

* `copy_inside` and `copy_outside`: a copy changes both in its range, to those of the
  source, and keeps both outside.
* `Tensor.exec_copyFrom`: to copy into a tensor is to copy into the elements that it owns,
  as many as asked for, or whole blocks where both windows end with their tensors.
* `Tensor.copyFrom_copies`: no elements but those of the window change, and none if the
  copy is refused.
* `Tensor.copyFrom_outcome`: between quantized tensors the copy is made if both windows lie
  on blocks (`copyFrom_accepts`), and refused if not (`copyFrom_refuses`); but where both
  end with their tensors the blocks that the copy is rounded up to may not fit, and then it
  aborts (`copyFrom_escapes`).
-/

namespace BlockTensor

open Outcome Update

variable {α : Type}

/-- What is copied from one buffer to another. -/
theorem Buffer.getElem?_blit_extract {β : Type} {a b : Array β} {start source len j : Nat}
    (ha : start + len ≤ a.size) (hb : source + len ≤ b.size) (hj : j < len) :
    (blit a start (b.extract source (source + len)))[start + j]? = b[source + j]? := by
  have hsize := size_extract_of_le hb
  rw [getElem?_blit_add (by rw [hsize]; exact ha) (by rw [hsize]; exact hj),
    getElem?_extract_of_lt hb (by omega)]

theorem Buffer.blit_extract_outside {β : Type} {a b : Array β} {start source len i : Nat}
    (hb : source + len ≤ b.size) (hi : i < start ∨ start + len ≤ i) :
    (blit a start (b.extract source (source + len)))[i]? = a[i]? :=
  Segment.blit_outside (by rwa [size_extract_of_le hb])

/-- What is stored for one element, apart from the scale of its block. -/
inductive Pattern (α : Type)
  | f32 (v : α)
  | f16 (u : UInt16)
  | bf16 (u : UInt16)
  | q8 (code : Int8)
  | q4 (nibble : UInt8)
  deriving DecidableEq

/-- A pattern with the scale of its block, which only quantized encodings have. -/
def Pattern.cell : Pattern α → Option α → Option (Cell α)
  | f32 v, _ => some (.f32 v)
  | f16 u, _ => some (.f16 u)
  | bf16 u, _ => some (.bf16 u)
  | q8 code, scale => scale.map (.q8 code)
  | q4 nibble, scale => scale.map (.q4 nibble)

namespace Elements

/-- The pattern of element `i`. -/
def pattern? (e : Elements α) (i : Nat) : Option (Pattern α) :=
  match e with
  | f32 data => data[i]?.map .f32
  | f16 data => data[i]?.map .f16
  | bf16 data => data[i]?.map .bf16
  | q8 data _ => data[i]?.map .q8
  | q4 data _ => data[Q4.byteOf i]?.map fun b => .q4 (Q4.nibble i b)

/-- The scale of the block of element `i`. -/
def scale? (e : Elements α) (i : Nat) : Option α :=
  match e with
  | q8 _ scales | q4 _ scales => scales[i / blockSize]?
  | _ => none

theorem cell?_eq (e : Elements α) (i : Nat) :
    e.cell? i = (e.pattern? i).bind fun p => p.cell (e.scale? i) := by
  cases e with
  | f32 data | f16 data | bf16 data | q8 data scales =>
    simp only [cell?, pattern?, scale?]
    cases data[i]? <;> rfl
  | q4 data scales =>
    simp only [cell?, pattern?, scale?]
    cases data[Q4.byteOf i]? <;> rfl

/-- Elements that fill their buffer are what is put in place of it all. -/
theorem put_all {e new : Elements α} (h : new.layout = e.layout) : e.put ⟨0, new⟩ = new := by
  cases e <;> cases new <;> simp_all [layout, put, Buffer.blit_all]

/-! ## Copies -/

section

variable {e src : Elements α} {start source len : Nat}

theorem div_block_lt {start len j : Nat} (hstart : start % blockSize = 0)
    (hstop : (start + len) % blockSize = 0) (hj : j < len) : j / blockSize < len / blockSize := by
  simp only [blockSize] at *
  omega

theorem div_block_outside {start len i : Nat} (hstart : start % blockSize = 0)
    (hstop : (start + len) % blockSize = 0) (hi : i < start ∨ start + len ≤ i) :
    i / blockSize < start / blockSize ∨ start / blockSize + len / blockSize ≤ i / blockSize := by
  simp only [blockSize] at *
  omega

/-- Inside its range, a copy has the patterns and the scales of the source. -/
theorem copy_inside (h : e.CopyFits start src source len) (hs : e.CopyScaled start src source len)
    {j : Nat} (hj : j < len) :
    (e.put ⟨start, src.extract source len⟩).pattern? (start + j) = src.pattern? (source + j) ∧
      (e.put ⟨start, src.extract source len⟩).scale? (start + j) = src.scale? (source + j) := by
  obtain ⟨hd, htarget, hwithin, hstart, hsource, hstop⟩ := h
  cases e with
  | f32 data | f16 data | bf16 data =>
    cases src <;> cases hd
    refine ⟨?_, rfl⟩
    simp only [pattern?, put, extract]
    rw [Buffer.getElem?_blit_extract htarget hwithin hj]
  | q8 data scales =>
    cases src with
    | q8 run runScales =>
      have hstart : start % blockSize = 0 := hstart
      have hsource : source % blockSize = 0 := hsource
      rw [extract_q8 hsource (source_stop hstart hsource hstop)]
      simp only [pattern?, scale?, put]
      rw [Buffer.getElem?_blit_extract htarget hwithin hj, Segment.add_div_block hstart,
        Segment.add_div_block hsource,
        Buffer.getElem?_blit_extract (hs rfl).1 (hs rfl).2 (div_block_lt hstart hstop hj)]
      exact ⟨rfl, rfl⟩
    | _ => cases hd
  | q4 data scales =>
    cases src with
    | q4 bytes runScales =>
      have hstart : start % blockSize = 0 := hstart
      have hsource : source % blockSize = 0 := hsource
      have hstop : (start + len) % blockSize = 0 := hstop
      have hbyte : Q4.byteOf j < len / 2 ∧ start / 2 + len / 2 ≤ data.size ∧
          source / 2 + len / 2 ≤ bytes.size ∧ (source + len) / 2 = source / 2 + len / 2 := by
        simp only [size, Q4.byteOf, Q4.slot, blockSize, q4BlockBytes] at *
        omega
      rw [extract_q4 hsource (source_stop hstart hsource hstop)]
      simp only [pattern?, scale?, put]
      rw [hbyte.2.2.2, byteOf_half_add hstart, byteOf_half_add hsource,
        Buffer.getElem?_blit_extract hbyte.2.1 hbyte.2.2.1 hbyte.1, Segment.add_div_block hstart,
        Segment.add_div_block hsource,
        Buffer.getElem?_blit_extract (hs rfl).1 (hs rfl).2 (div_block_lt hstart hstop hj)]
      simp only [nibble_add hstart, nibble_add hsource, and_self]
    | _ => cases hd

/-- Outside of its range, a copy keeps the patterns and the scales. -/
theorem copy_outside (h : e.CopyFits start src source len) (hs : e.CopyScaled start src source len)
    {i : Nat} (hi : i < start ∨ start + len ≤ i) :
    (e.put ⟨start, src.extract source len⟩).pattern? i = e.pattern? i ∧
      (e.put ⟨start, src.extract source len⟩).scale? i = e.scale? i := by
  obtain ⟨hd, htarget, hwithin, hstart, hsource, hstop⟩ := h
  cases e with
  | f32 data | f16 data | bf16 data =>
    cases src <;> cases hd
    refine ⟨?_, rfl⟩
    simp only [pattern?, put, extract]
    rw [Buffer.blit_extract_outside hwithin hi]
  | q8 data scales =>
    cases src with
    | q8 run runScales =>
      have hstart : start % blockSize = 0 := hstart
      have hsource : source % blockSize = 0 := hsource
      rw [extract_q8 hsource (source_stop hstart hsource hstop)]
      simp only [pattern?, scale?, put]
      rw [Buffer.blit_extract_outside hwithin hi,
        Buffer.blit_extract_outside (hs rfl).2 (div_block_outside hstart hstop hi)]
      exact ⟨rfl, rfl⟩
    | _ => cases hd
  | q4 data scales =>
    cases src with
    | q4 bytes runScales =>
      have hstart : start % blockSize = 0 := hstart
      have hsource : source % blockSize = 0 := hsource
      have hstop : (start + len) % blockSize = 0 := hstop
      have hbytes : source / 2 + len / 2 ≤ bytes.size ∧
          (source + len) / 2 = source / 2 + len / 2 := by
        simp only [size, blockSize] at *
        omega
      have hout : Q4.byteOf i < start / 2 ∨ start / 2 + len / 2 ≤ Q4.byteOf i := by
        simp only [Q4.byteOf, Q4.slot, blockSize, q4BlockBytes] at *
        omega
      rw [extract_q4 hsource (source_stop hstart hsource hstop), hbytes.2]
      simp only [pattern?, scale?, put]
      rw [Buffer.blit_extract_outside hbytes.1 hout,
        Buffer.blit_extract_outside (hs rfl).2 (div_block_outside hstart hstop hi)]
      exact ⟨rfl, rfl⟩
    | _ => cases hd

/-- What is copied can be read. -/
theorem exists_cell_of_copy (h : e.CopyFits start src source len)
    (hs : e.CopyScaled start src source len) {j : Nat} (hj : j < len) :
    ∃ c, src.cell? (source + j) = some c := by
  obtain ⟨hd, -, hwithin, hstart, hsource, hstop⟩ := h
  rw [← hd] at hstart hsource hstop
  refine exists_cell_of_scale (Nat.add_lt_add_left hj source) hwithin ?_ fun hq => ?_
  · rw [Nat.add_mod, hsource, Nat.zero_add, Nat.mod_mod]
    rwa [Nat.add_mod, hstart, Nat.zero_add, Nat.mod_mod] at hstop
  · have hblock : src.dtype.blockSize = blockSize := if_pos hq
    rw [hblock] at hstart hsource hstop
    have hscales := (hs (hd ▸ hq)).2
    have hlt := div_block_lt hstart hstop hj
    rw [Segment.add_div_block hsource]
    omega

end

end Elements

open Target (copySpan copyWindows)

namespace Target

theorem le_copySpan (d : DType) (size srcSize source start len : Nat) :
    len ≤ copySpan d size srcSize source start len := by
  unfold copySpan
  split
  · simp only [blocksOf, blockSize]
    omega
  · exact Nat.le_refl _

theorem copySpan_eq_or (d : DType) (size srcSize source start len : Nat) :
    copySpan d size srcSize source start len = len ∨ start + len = size := by
  by_cases h : start + len = size
  · exact .inr h
  · exact .inl (copySpan_of_not_ends d fun hends => h hends.1)

end Target

namespace Tensor

section

variable {shape : Shape} {e : Elements α}

theorem target_owning (hb : shape.size < Word.bound) (hle : shape.size ≤ e.size) :
    (owning shape e).target = .ok ⟨shape, e.whole⟩ := by
  show Target.of shape e.whole = _
  rw [Target.of, Elements.whole, checkHolds_of_le hb hle]
  rfl

theorem put_owning {e' : Elements α} (h : e'.layout = e.layout) :
    (owning shape e).put ⟨shape, 0, e'⟩ = owning shape e' :=
  congrArg (owning shape) (Elements.put_all h)

/-- A tensor can be written to if it owns elements that hold its shape. -/
theorem target_eq_ok {t : Tensor α} {part : Target α} (h : t.target = .ok part) :
    ∃ shape e, t = owning shape e ∧ shape.size < Word.bound ∧ shape.size ≤ e.size := by
  obtain ⟨shape, storage⟩ := t
  obtain ⟨e, he, h⟩ := bind_eq_ok.mp h
  obtain ⟨_, hholds, -⟩ := bind_eq_ok.mp h
  obtain ⟨n, hn, hholds⟩ := bind_eq_ok.mp hholds
  obtain ⟨hb, rfl⟩ := Word.check_eq_ok.mp hn
  split at hholds
  case isFalse => exact absurd hholds (stop_ne_ok _ _)
  rename_i hle
  cases storage with
  | shared e' => exact absurd he (fail_ne_ok _ _)
  | mapped m => exact absurd he (fail_ne_ok _ _)
  | owned e' =>
    obtain rfl : e' = e := Except.ok.inj he
    exact ⟨shape, e', rfl, hb, hle⟩

end

variable [Scalar α]

/-- To copy into a tensor is to copy into the elements that it owns, if the windows pass
their checks. -/
theorem exec_copyFrom {shape : Shape} {e : Elements α} (hb : shape.size < Word.bound)
    (hle : shape.size ≤ e.size) (src : View α) (source start len : Nat) :
    (copyFrom src source start len).exec (owning shape e) =
      match copyWindows shape.size src source start len with
      | .error f => (.error f, owning shape e)
      | .ok _ =>
        let r := (Elements.copyRaw start src.elems source
          (copySpan e.dtype shape.size src.size source start len)).exec e
        (r.1, owning shape r.2) := by
  unfold Update.exec copyFrom
  rw [target_owning hb hle]
  dsimp only
  obtain ⟨f, hwindows, hcopy⟩ | ⟨hwindows, hcopy⟩ :=
    Target.copyFrom_cases src source start len ⟨shape, e.whole⟩ <;>
    dsimp only [Target.size] at hwindows <;> rw [hcopy, hwindows]
  · exact congrArg (Prod.mk _) (put_owning rfl)
  · have hlayout := Elements.copyRaw_keeps start src.elems source
      (copySpan e.dtype shape.size src.size source start len) e
    dsimp only [Target.update, Segment.update, Elements.whole, Target.dtype, Target.size]
    generalize Elements.copyRaw start src.elems source _ e = r at hlayout ⊢
    cases r <;> exact congrArg (Prod.mk _) (put_owning hlayout)

/-! ## What is copied -/

/-- `after` is `e`, which has `size` elements, with `len` encoded elements of `src` from
`source` on in place of its own from `start` on. -/
structure Copied (e src : Elements α) (size source start len : Nat) (after : Elements α) :
    Prop where
  layout : after.layout = e.layout
  pattern : ∀ j < len, after.pattern? (start + j) = src.pattern? (source + j)
  scale : ∀ j < len, after.scale? (start + j) = src.scale? (source + j)
  value : ∀ j < len, ∃ v : α, after.get (start + j) = .ok v ∧ src.get (source + j) = .ok v
  kept : ∀ i < size, i < start ∨ start + len ≤ i →
    after.pattern? i = e.pattern? i ∧ after.scale? i = e.scale? i

/-- Blocks that a copy is rounded up to lie behind the last element. -/
theorem copied_put {e src : Elements α} {size source start len n : Nat}
    (hfits : e.CopyFits start src source n) (hs : e.CopyScaled start src source n) (hn : len ≤ n)
    (hend : n = len ∨ start + len = size) :
    Copied e src size source start len (e.put ⟨start, src.extract source n⟩) where
  layout := Elements.put_layout ..
  pattern j hj := (Elements.copy_inside hfits hs (by omega)).1
  scale j hj := (Elements.copy_inside hfits hs (by omega)).2
  value j hj := by
    have hj : j < n := by omega
    obtain ⟨hpattern, hscale⟩ := Elements.copy_inside hfits hs hj
    obtain ⟨c, hc⟩ := Elements.exists_cell_of_copy hfits hs hj
    have hcell : (e.put ⟨start, src.extract source n⟩).cell? (start + j) = some c := by
      rw [Elements.cell?_eq, hpattern, hscale, ← Elements.cell?_eq, hc]
    exact ⟨c.decode, by rw [Elements.get_eq_cell, hcell], by rw [Elements.get_eq_cell, hc]⟩
  kept i hi hout := Elements.copy_outside hfits hs (by omega)

/-- A copy that succeeds reads a contiguous source and replaces exactly the elements of
its window; one that reports an error changes nothing. -/
theorem copyFrom_copies (t : Tensor α) (src : View α) (source start len : Nat) :
    match (copyFrom src source start len).exec t with
    | (.ok _, after) =>
      after.shape = t.shape ∧ after.isReadOnly = t.isReadOnly ∧ start + len ≤ t.shape.size ∧
        source + len ≤ src.size ∧ src.isContiguous = true ∧
        Copied t.elements src.elems t.shape.size source start len after.elements
    | (.error (.error _), after) => after = t
    | (.error (.abort _), _) => True := by
  cases ht : t.target with
  | error f =>
    simp only [Update.exec, copyFrom, ht]
    cases f <;> trivial
  | ok part =>
    obtain ⟨shape, e, rfl, hb, hle⟩ := target_eq_ok ht
    rw [exec_copyFrom hb hle]
    cases hwindows : copyWindows shape.size src source start len with
    | error f => cases f <;> trivial
    | ok new =>
      obtain ⟨hstart, hsource, hc, -⟩ := Target.copyWindows_eq_ok hwindows
      have hspan := Target.le_copySpan e.dtype shape.size src.size source start len
      have hend := Target.copySpan_eq_or e.dtype shape.size src.size source start len
      generalize copySpan e.dtype shape.size src.size source start len = n at hspan hend
      unfold Update.exec
      obtain ⟨f, -, hcopy⟩ | ⟨-, hfits, ⟨hs, hcopy⟩ | ⟨-, e', hcopy⟩⟩ :=
        Elements.copyRaw_cases e src.elems start source n <;> rw [hcopy]
      · cases f <;> trivial
      · exact ⟨rfl, rfl, hstart, hsource, hc, copied_put hfits hs hspan hend⟩
      · trivial

end Tensor

/-! ## When a copy is made -/

namespace Elements

/-- The offsets of a copy are checked in turn, up to the first that is no start of a
block. -/
theorem checkSpan_eq (start source len : Nat) :
    checkSpan start source len =
      match [start, source, start + len].find? (· % blockSize ≠ 0) with
      | some offset => .fail (.blockMisaligned offset blockSize)
      | none => .ok () := by
  unfold checkSpan checkAligned
  by_cases hstart : start % blockSize = 0
  · by_cases hsource : source % blockSize = 0
    · by_cases hstop : (start + len) % blockSize = 0
      · simp [hstart, hsource, hstop]
      · simp [hstart, hsource, hstop]
    · simp [hstart, hsource]
      rfl
  · simp [hstart]
    rfl

section

variable {e src : Elements α} {start source n : Nat}

/-- Ranges that do not fit abort a copy. -/
theorem copyChecks_stops (hd : src.dtype = e.dtype)
    (h : e.size < start + n ∨ src.size < source + n) :
    ∃ a, copyChecks start src source n e = .stop a := by
  rw [copyChecks, if_neg (not_not_intro hd)]
  obtain ⟨hstart, hcheck⟩ | ⟨a, hcheck⟩ := checkRange_cases start n e.size
  · obtain ⟨hsource, -⟩ | ⟨a, hcheck'⟩ := checkRange_cases source n src.size
    · omega
    · exact ⟨a, by rw [hcheck, hcheck']; rfl⟩
  · exact ⟨a, by rw [hcheck]; rfl⟩

/-- Ranges that fit need to lie on blocks. -/
theorem copyChecks_eq (hd : src.dtype = e.dtype) (hq : e.dtype.isQuantized = true)
    (he : e.size < Word.bound) (hs : src.size < Word.bound) (hstart : start + n ≤ e.size)
    (hsource : source + n ≤ src.size) :
    copyChecks start src source n e = checkSpan start source n := by
  rw [copyChecks, if_neg (not_not_intro hd), checkRange_of_le hstart he,
    checkRange_of_le hsource hs, if_pos hq]
  rfl

/-- Between elements with a scale to each block, the checks decide about a copy. -/
theorem exec_copyRaw (he : e.Scaled) (hs : src.Scaled) :
    (copyRaw start src source n).exec e =
      match copyChecks start src source n e with
      | .error f => (.error f, e)
      | .ok _ => (.ok (), e.put ⟨start, src.extract source n⟩) := by
  unfold Update.exec
  obtain ⟨f, hchecks, hcopy⟩ | ⟨hchecks, -, hcopy⟩ := copyRaw_eq he hs start source n
  · rw [hchecks, hcopy]
  · rw [hchecks, hcopy]

/-- If the windows of a copy are on no blocks, one of its offsets is not, whether the
length that is moved is asked for or more. -/
theorem exists_misaligned {len : Nat}
    (h : start % blockSize = 0 → source % blockSize = 0 → n = len ∧ len % blockSize ≠ 0) :
    ∃ offset, [start, source, start + len].find? (· % blockSize ≠ 0) = some offset ∧
      [start, source, start + n].find? (· % blockSize ≠ 0) = some offset := by
  by_cases hstart : start % blockSize = 0
  · by_cases hsource : source % blockSize = 0
    · obtain ⟨rfl, hlen⟩ := h hstart hsource
      have hstop : (start + n) % blockSize ≠ 0 := by
        simp only [blockSize] at *
        omega
      exact ⟨start + n, by simp [hstart, hsource, hstop], by simp [hstart, hsource, hstop]⟩
    · exact ⟨source, by simp [hstart, hsource], by simp [hstart, hsource]⟩
  · exact ⟨start, by simp [hstart], by simp [hstart]⟩

/-- A range that starts on a block stays inside whole blocks up to the end of its last. -/
theorem round_up_le {offset len : Nat} (he : e.Scaled) (hq : e.dtype.isQuantized = true)
    (hoffset : offset % blockSize = 0) (h : offset + len ≤ e.size) :
    offset + blocksOf len * blockSize ≤ e.size := by
  rw [size_eq_scaleCount he hq] at h ⊢
  simp only [blocksOf, blockSize] at *
  omega

end

end Elements

namespace Tensor

variable [Scalar α]

section

variable {shape : Shape} {e : Elements α} {src : View α} {source start len : Nat}
  (ht : (owning shape e).WellFormed) (hq : e.dtype.isQuantized = true) (hs : src.WellFormed)
  (hc : src.isContiguous = true) (hd : src.dtype = e.dtype) (hstart : start + len ≤ shape.size)
  (hsource : source + len ≤ src.size)

include ht hs hc hstart hsource

/-- Between tensors with a scale to each block, the checks decide about a copy. -/
theorem exec_copyFrom_of_scaled :
    let n := copySpan e.dtype shape.size src.size source start len
    (copyFrom src source start len).exec (owning shape e) =
      match Elements.copyChecks start src.elems source n e with
      | .error f => (.error f, owning shape e)
      | .ok _ => (.ok (), owning shape (e.put ⟨start, src.elems.extract source n⟩)) := by
  have he : e.Scaled := ht.elems.scaled
  have hle : shape.size ≤ e.size := ht.filled.size_le
  have hb : shape.size < Word.bound := Nat.lt_of_le_of_lt hle ht.elems.fits
  have hwindows : copyWindows shape.size src source start len = .ok src.elems := by
    rw [copyWindows, Target.checkCopyWindow_of_le hstart hb, ok_bind,
      Target.checkCopyWindow_of_le hsource hs.fits, ok_bind, View.contiguous, if_pos hc]
  intro n
  rw [exec_copyFrom hb hle, hwindows]
  dsimp only
  rw [Elements.exec_copyRaw he hs.elems.scaled]
  cases Elements.copyChecks start src.elems source n e <;> rfl

include hq hd

theorem copyFrom_accepts (ha : start % blockSize = 0) (ha' : source % blockSize = 0)
    (hlen : len % blockSize = 0 ∨ start + len = shape.size ∧ source + len = src.size) :
    ((copyFrom src source start len).exec (owning shape e)).1 = .ok () := by
  have htarget : start + len ≤ e.size := Nat.le_trans hstart ht.filled.size_le
  have hwithin : source + len ≤ src.elems.size := Nat.le_trans hsource (hs.size_le hc)
  have hq' : src.elems.dtype.isQuantized = true := (congrArg DType.isQuantized hd).trans hq
  rw [exec_copyFrom_of_scaled ht hs hc hstart hsource]
  have hspan : let n := copySpan e.dtype shape.size src.size source start len
      n % blockSize = 0 ∧ start + n ≤ e.size ∧ source + n ≤ src.elems.size := by
    by_cases hends : start + len = shape.size ∧ source + len = src.size
    · rw [Target.copySpan_of_ends hq hends]
      exact ⟨Nat.mul_mod_left .., Elements.round_up_le ht.elems.scaled hq ha htarget,
        Elements.round_up_le hs.elems.scaled hq' ha' hwithin⟩
    · rw [Target.copySpan_of_not_ends _ hends]
      exact ⟨hlen.resolve_right hends, htarget, hwithin⟩
  generalize copySpan e.dtype shape.size src.size source start len = n at hspan
  obtain ⟨hn, htarget, hwithin⟩ := hspan
  rw [Elements.copyChecks_eq hd hq ht.elems.fits hs.elems.fits htarget hwithin, Elements.checkSpan,
    checkAligned_of_mod ha, checkAligned_of_mod ha',
    checkAligned_of_mod (Segment.add_mod_block ha hn)]
  rfl

theorem copyFrom_refuses (halign : ¬(start % blockSize = 0 ∧ source % blockSize = 0 ∧
      (len % blockSize = 0 ∨ start + len = shape.size ∧ source + len = src.size)))
    (hfits : ¬((start + len = shape.size ∧ source + len = src.size) ∧
      (e.size < start + blocksOf len * blockSize ∨
        src.elems.size < source + blocksOf len * blockSize))) :
    ∃ offset, [start, source, start + len].find? (· % blockSize ≠ 0) = some offset ∧
      (copyFrom src source start len).exec (owning shape e) =
        (.error (.error (.blockMisaligned offset blockSize)), owning shape e) := by
  have htarget : start + len ≤ e.size := Nat.le_trans hstart ht.filled.size_le
  have hwithin : source + len ≤ src.elems.size := Nat.le_trans hsource (hs.size_le hc)
  rw [exec_copyFrom_of_scaled ht hs hc hstart hsource]
  have hspan : let n := copySpan e.dtype shape.size src.size source start len
      (start % blockSize = 0 → source % blockSize = 0 → n = len ∧ len % blockSize ≠ 0) ∧
        start + n ≤ e.size ∧ source + n ≤ src.elems.size := by
    by_cases hends : start + len = shape.size ∧ source + len = src.size
    · rw [Target.copySpan_of_ends hq hends]
      have hroom := fun h => hfits ⟨hends, h⟩
      exact ⟨fun ha ha' => absurd ⟨ha, ha', .inr hends⟩ halign, by omega, by omega⟩
    · rw [Target.copySpan_of_not_ends _ hends]
      exact ⟨fun ha ha' => ⟨rfl, fun h => halign ⟨ha, ha', .inl h⟩⟩, htarget, hwithin⟩
  generalize copySpan e.dtype shape.size src.size source start len = n at hspan
  obtain ⟨hn, htarget, hwithin⟩ := hspan
  obtain ⟨offset, hasked, hmoved⟩ := Elements.exists_misaligned hn
  refine ⟨offset, hasked, ?_⟩
  rw [Elements.copyChecks_eq hd hq ht.elems.fits hs.elems.fits htarget hwithin,
    Elements.checkSpan_eq, hmoved]
  rfl

theorem copyFrom_escapes (hends : start + len = shape.size ∧ source + len = src.size)
    (h : e.size < start + blocksOf len * blockSize ∨
      src.elems.size < source + blocksOf len * blockSize) :
    ∃ a, (copyFrom src source start len).exec (owning shape e) =
      (.error (.abort a), owning shape e) := by
  rw [exec_copyFrom_of_scaled ht hs hc hstart hsource, Target.copySpan_of_ends hq hends]
  obtain ⟨a, ha⟩ := Elements.copyChecks_stops hd h
  exact ⟨a, by rw [ha]; rfl⟩

end

/-- Between quantized tensors, a copy is made if both windows start on blocks and their
length is whole blocks, or they end with their tensors. Else it is refused, naming the
first offset that is not on a block. But where the windows end with their tensors the
length is rounded up before the offsets are checked, and if these many elements are not
held the copy aborts. -/
theorem copyFrom_outcome {shape : Shape} {e : Elements α} {src : View α}
    {source start len : Nat} (ht : (owning shape e).WellFormed)
    (hq : e.dtype.isQuantized = true) (hs : src.WellFormed) (hc : src.isContiguous = true)
    (hd : src.dtype = e.dtype) (hstart : start + len ≤ shape.size)
    (hsource : source + len ≤ src.size) :
    let ends := start + len = shape.size ∧ source + len = src.size
    let aligned := start % blockSize = 0 ∧ source % blockSize = 0 ∧ (len % blockSize = 0 ∨ ends)
    let escapes := ends ∧ (e.size < start + blocksOf len * blockSize ∨
      src.elems.size < source + blocksOf len * blockSize)
    let result := (copyFrom src source start len).exec (owning shape e)
    (aligned → result.1 = .ok ()) ∧
      (¬aligned → ¬escapes → ∃ offset,
        [start, source, start + len].find? (· % blockSize ≠ 0) = some offset ∧
          result = (.error (.error (.blockMisaligned offset blockSize)), owning shape e)) ∧
      (escapes → ¬aligned ∧ ∃ a, result = (.error (.abort a), owning shape e)) := by
  intro ends aligned escapes result
  refine ⟨fun ⟨ha, ha', hlen⟩ => copyFrom_accepts ht hq hs hc hd hstart hsource ha ha' hlen,
    copyFrom_refuses ht hq hs hc hd hstart hsource, fun ⟨hends, h⟩ => ?_⟩
  obtain ⟨a, habort⟩ := copyFrom_escapes ht hq hs hc hd hstart hsource hends h
  refine ⟨fun ⟨ha, ha', hlen⟩ => ?_, a, habort⟩
  -- windows on blocks are copied
  have hok := copyFrom_accepts ht hq hs hc hd hstart hsource ha ha' hlen
  rw [habort] at hok
  cases hok

/-- The shape of three elements, which do not fill a block. -/
def unfilled : Shape := ⟨[3], by decide, by decide⟩

/-- They are a block of zeros. -/
def zeroBlock : Elements Binary32 := .q8 (.replicate 32 0) #[⟨0⟩]

/-- The view of all three. -/
def unfilledView : View Binary32 := ⟨unfilled, unfilled.strides, zeroBlock⟩

theorem wellFormed_zeroBlock : zeroBlock.WellFormed := ⟨rfl, by decide⟩

theorem wellFormed_unfilled : (owning unfilled zeroBlock).WellFormed := ⟨wellFormed_zeroBlock, rfl⟩

theorem wellFormed_unfilledView : unfilledView.WellFormed :=
  View.wellFormed_of wellFormed_zeroBlock (by decide)

theorem copyFrom_outcome_wholeViews :
    (owning unfilled zeroBlock).WellFormed ∧ zeroBlock.dtype.isQuantized = true ∧
      unfilledView.WellFormed ∧ unfilledView.isContiguous = true ∧
      unfilledView.dtype = zeroBlock.dtype ∧ 0 + 3 ≤ unfilled.size ∧ 0 + 3 ≤ unfilledView.size ∧
      ((copyFrom unfilledView 0 0 3).exec (owning unfilled zeroBlock)).1 = .ok () := by
  have hstart : 0 + 3 ≤ unfilled.size := by decide
  have hsource : 0 + 3 ≤ unfilledView.size := by decide
  obtain ⟨hok, -⟩ :=
    copyFrom_outcome wellFormed_unfilled rfl wellFormed_unfilledView rfl rfl hstart hsource
  exact ⟨wellFormed_unfilled, rfl, wellFormed_unfilledView, rfl, rfl, hstart, hsource,
    hok ⟨rfl, rfl, .inr ⟨rfl, rfl⟩⟩⟩

/-- A copy between the last elements aborts, since it is rounded up to a block before
its offsets are found to be on none. -/
theorem copyFrom_aborts :
    (owning unfilled zeroBlock).WellFormed ∧ zeroBlock.dtype.isQuantized = true ∧
      unfilledView.WellFormed ∧ unfilledView.isContiguous = true ∧
      unfilledView.dtype = zeroBlock.dtype ∧ 2 + 1 ≤ unfilled.size ∧ 2 + 1 ≤ unfilledView.size ∧
      2 % blockSize ≠ 0 ∧
      (copyFrom unfilledView 2 2 1).exec (owning unfilled zeroBlock) =
        (.error (.abort (.rangeEscapes 2 34 32)), owning unfilled zeroBlock) := by
  have hstart : 2 + 1 ≤ unfilled.size := by decide
  have hsource : 2 + 1 ≤ unfilledView.size := by decide
  have hchecks : Elements.copyChecks 2 unfilledView.elems 2
      (copySpan zeroBlock.dtype unfilled.size unfilledView.size 2 2 1) zeroBlock =
        .stop (.rangeEscapes 2 34 32) := rfl
  refine ⟨wellFormed_unfilled, rfl, wellFormed_unfilledView, rfl, rfl, hstart, hsource, by decide,
    ?_⟩
  rw [exec_copyFrom_of_scaled wellFormed_unfilled wellFormed_unfilledView rfl hstart hsource,
    hchecks]
  rfl

end Tensor

end BlockTensor

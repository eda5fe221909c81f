import BlockTensor.Elements.Write

/-!
# Segments

A segment is a sub-range of an owner's elements that may be written: its
contents, and the element of the owner at which it starts. What is written to a
segment reaches the owner when it is put back (`Elements.put`).

* `Segment.narrow start len` is a part of a segment. In a quantized encoding it
  starts on a block, and it ends on a block or where the segment ends, so every
  block that it can write belongs to it alone.
* `Segment.splitAt mid` are the two parts before and after an element.
-/

namespace BlockTensor

/-- A writable sub-range: its first element in the owner, and its contents. -/
structure Segment (α : Type) where
  start : Nat
  elems : Elements α

namespace Elements

variable {α : Type}

/-- The segment that is all of its owner. -/
def whole (e : Elements α) : Segment α := ⟨0, e⟩

/-- The owner with the contents of a segment in their place. -/
def put (e : Elements α) (s : Segment α) : Elements α :=
  match e, s.elems with
  | f32 data, f32 new => f32 (Buffer.blit data s.start new)
  | f16 data, f16 new => f16 (Buffer.blit data s.start new)
  | bf16 data, bf16 new => bf16 (Buffer.blit data s.start new)
  | q8 data scales, q8 new newScales =>
    q8 (Buffer.blit data s.start new) (Buffer.blit scales (s.start / blockSize) newScales)
  | q4 data scales, q4 new newScales =>
    q4 (Buffer.blit data (s.start / 2) new) (Buffer.blit scales (s.start / blockSize) newScales)
  | e, _ => e

end Elements

namespace Segment

variable {α : Type}

/-- The part of `len` elements from `start` on. -/
def narrow (s : Segment α) (start len : Nat) : Outcome (Segment α) := do
  checkRange start len s.elems.size
  let stop := start + len
  let first := start / blockSize
  let last := blocksOf stop
  if s.elems.dtype.isQuantized ∧ last * blockSize ≠ s.elems.size then checkAligned stop
  match s.elems with
  | .f32 data => return ⟨s.start + start, .f32 (← Buffer.cut data start stop)⟩
  | .f16 data => return ⟨s.start + start, .f16 (← Buffer.cut data start stop)⟩
  | .bf16 data => return ⟨s.start + start, .bf16 (← Buffer.cut data start stop)⟩
  | .q8 data scales =>
    checkAligned start
    let data ← Buffer.cut data (first * blockSize) (last * blockSize)
    return ⟨s.start + start, .q8 data (← Buffer.cut scales first last)⟩
  | .q4 data scales =>
    checkAligned start
    let data ← Buffer.cut data (first * q4BlockBytes) (last * q4BlockBytes)
    return ⟨s.start + start, .q4 data (← Buffer.cut scales first last)⟩

/-- The two parts of a buffer before and after position `mid`. -/
def cutAt {β : Type} (a : Array β) (mid : Nat) : Outcome (Array β × Array β) := do
  return (← Buffer.cut a 0 mid, ← Buffer.cut a mid a.size)

/-- The parts before and after element `mid`. -/
def splitAt (s : Segment α) (mid : Nat) : Outcome (Segment α × Segment α) := do
  checkRange 0 mid s.elems.size
  match s.elems with
  | .f32 data =>
    let (a, b) ← cutAt data mid
    return (⟨s.start, .f32 a⟩, ⟨s.start + mid, .f32 b⟩)
  | .f16 data =>
    let (a, b) ← cutAt data mid
    return (⟨s.start, .f16 a⟩, ⟨s.start + mid, .f16 b⟩)
  | .bf16 data =>
    let (a, b) ← cutAt data mid
    return (⟨s.start, .bf16 a⟩, ⟨s.start + mid, .bf16 b⟩)
  | .q8 data scales =>
    checkAligned mid
    let (a, b) ← cutAt data mid
    let (sa, sb) ← cutAt scales (mid / blockSize)
    return (⟨s.start, .q8 a sa⟩, ⟨s.start + mid, .q8 b sb⟩)
  | .q4 data scales =>
    checkAligned mid
    let (a, b) ← cutAt data (mid / 2)
    let (sa, sb) ← cutAt scales (mid / blockSize)
    return (⟨s.start, .q4 a sa⟩, ⟨s.start + mid, .q4 b sb⟩)

/-- Update the contents. -/
def update {β : Type} (u : Update (Elements α) β) : Update (Segment α) β := fun s =>
  match u s.elems with
  | .ok v e => .ok v ⟨s.start, e⟩
  | .error f e => .error f ⟨s.start, e⟩

end Segment

end BlockTensor

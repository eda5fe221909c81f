/-!
# Brain-float patterns

The brain float is the upper half of a binary32 pattern.

* `Brain.widen` appends sixteen zero bits.
* `Brain.narrow` rounds the magnitude to nearest, ties to even. A NaN, and a
  finite value whose rounding reaches the exponent of the infinities, becomes
  the signed `Brain.nan`; an infinity keeps its pattern.
-/

namespace BlockTensor

namespace Brain

/-- The NaN pattern that narrowing produces, before the sign is set. -/
def nan : UInt16 := 0x7f81

/-- The binary32 pattern of a brain float. -/
def widen (b : UInt16) : UInt32 :=
  b.toUInt32 <<< 16

/-- The magnitude bits of `v` plus the amount that carries a half up and a tie
to even. -/
def biased (v : UInt32) : UInt32 :=
  let magnitude := v &&& 0x7fffffff
  let kept := (v >>> 16) &&& 1
  magnitude + (0x7fff + kept)

/-- The brain float nearest to a binary32 pattern. -/
def narrow (v : UInt32) : UInt16 :=
  let upper := (v >>> 16).toUInt16
  let sign := upper &&& 0x8000
  let magnitude := (biased v >>> 16).toUInt16
  if v &&& 0x7f800000 = 0x7f800000 then
    if v &&& 0x7fffff = 0 then upper else sign ||| nan
  else if magnitude &&& 0x7f80 = 0x7f80 then sign ||| nan
  else sign ||| magnitude

example : narrow 0x3f808000 = 0x3f80 ∧ narrow 0x3f818000 = 0x3f82 ∧ narrow 0x7f7fffff = 0x7f81 := by
  decide

end Brain

end BlockTensor

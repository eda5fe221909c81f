import BlockTensor.DType

/-!
# Backend descriptors

What a backend is called, what it needs, and for which pairs of encodings it
takes dot products. A pair is supported in either order.
-/

namespace BlockTensor

/-- What a backend needs before it can run. -/
inductive Requirement
  | none
  | vectorUnit
  | nativeLibrary
  deriving DecidableEq

def Requirement.name : Requirement → String
  | none => "None"
  | vectorUnit => "VectorUnit"
  | nativeLibrary => "NativeLibrary"

/-- The description of a backend. -/
structure Descriptor where
  name : String
  requires : Requirement
  pairs : List (DType × DType)
  deriving DecidableEq

namespace Descriptor

/-- Whether a list of pairs has `a` and `b` in either order. -/
def covers (pairs : List (DType × DType)) (a b : DType) : Bool :=
  pairs.any fun p => p == (a, b) || p == (b, a)

def supports (d : Descriptor) (a b : DType) : Bool := covers d.pairs a b

/-- Each encoding with itself and those after it. -/
def pairsFrom : List DType → List (DType × DType)
  | [] => []
  | a :: rest => (a :: rest).map (fun b => (a, b)) ++ pairsFrom rest

/-- Every pair of encodings. -/
def allPairs : List (DType × DType) := pairsFrom DType.all

/-- The one-line description. -/
def summary (d : Descriptor) : String := s!"{d.name} (requires {d.requires.name})"

theorem covers_comm (pairs : List (DType × DType)) (a b : DType) :
    covers pairs a b = covers pairs b a := by
  unfold covers
  congr 1
  funext p
  exact Bool.or_comm ..

theorem covers_allPairs (a b : DType) : covers allPairs a b = true := by
  cases a <;> cases b <;> decide

end Descriptor

end BlockTensor

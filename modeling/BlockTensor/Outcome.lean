import BlockTensor.Error

/-!
# Outcomes and updates

* An `Outcome β` is a value or the `Fault` that prevented it: an error that the
  operation reports, or an abort that stopped it.
* An `Update σ β` also changes a `σ`. When it fails, the state it leaves is what
  it had made of it by then, so a law may say that a refused write left its
  destination alone, or exactly what it had written.
* `Word.add` and `Word.mul` are the sums and products of machine words; they
  abort where the result does not fit.
-/

namespace BlockTensor

/-- Why there is no result. -/
inductive Fault
  | error (e : TensorError)
  | abort (a : Abort)
  deriving DecidableEq

/-- A value, or the fault that prevented it. -/
abbrev Outcome := Except Fault

namespace Outcome

/-- Report an error. -/
def fail {β : Type} (e : TensorError) : Outcome β := .error (.error e)

/-- Stop at a broken precondition. -/
def stop {β : Type} (a : Abort) : Outcome β := .error (.abort a)

/-- Whether an outcome is a value or a reported error, and no abort. -/
def Reports {β : Type} : Outcome β → Prop
  | .error (.abort _) => False
  | _ => True

end Outcome

/-- A change of a `σ` with a result; a failing one leaves what it had written. -/
abbrev Update (σ : Type) := EStateM Fault σ

namespace Update

variable {σ β : Type}

/-- An outcome that changes nothing. -/
def ofOutcome (x : Outcome β) : Update σ β := fun s =>
  match x with
  | .ok v => .ok v s
  | .error f => .error f s

instance : MonadLift Outcome (Update σ) := ⟨ofOutcome⟩

/-- `u`, with an error that it reports taken for no failure. -/
def tolerate (u : Update σ Unit) : Update σ Unit := fun s =>
  match u s with
  | .error (.error _) s' => .ok () s'
  | r => r

/-- The result of an update, and the state that it leaves in either case. -/
def exec (u : Update σ β) (s : σ) : Outcome β × σ :=
  match u s with
  | .ok v s' => (.ok v, s')
  | .error f s' => (.error f, s')

@[simp] theorem exec_pure (v : β) (s : σ) : exec (pure v : Update σ β) s = (.ok v, s) := rfl

theorem exec_ofOutcome (x : Outcome β) (s : σ) : exec (ofOutcome x) s = (x, s) := by
  cases x <;> rfl

end Update

namespace Word

/-- The number of values of a machine word. -/
def bound : Nat := UInt64.size

/-- `n`, if it fits in a word. -/
def check (n : Nat) : Outcome Nat :=
  if n < bound then .ok n else .stop .overflow

def add (a b : Nat) : Outcome Nat := check (a + b)

def mul (a b : Nat) : Outcome Nat := check (a * b)

theorem check_eq_ok {n m : Nat} : check n = .ok m ↔ n < bound ∧ n = m := by
  unfold check
  by_cases h : n < bound <;> simp [h, Outcome.stop]

end Word

/-- Bytes that back `n` elements, as a machine word. -/
def DType.storageWord (d : DType) (n : Nat) : Outcome Nat := Word.check (d.storageBytes n)

/-- The encoding that a tag names, in either case of its ASCII letters. -/
def DType.parse (s : String) : Outcome DType :=
  match ofTag? (upperAscii s) with
  | some d => .ok d
  | none => .fail (.unsupportedDType (.text (upperAscii s)))

end BlockTensor

/-!
# Numbers and names in settings

* `Text.trim` drops blanks at both ends; `Text.isBlank` are the characters that
  Unicode calls white space.
* `Text.readWord` reads a machine word: decimal digits, with a plus sign in front
  if one likes. The first digit at which the number is too large, or the first
  character that is no digit, decides what is wrong with it.
-/

namespace BlockTensor.Text

/-- White space. -/
def isBlank (c : Char) : Bool :=
  let n := c.toNat
  (9 ≤ n && n ≤ 13) || n == 0x20 || n == 0x85 || n == 0xa0 || n == 0x1680
    || (0x2000 ≤ n && n ≤ 0x200a) || n == 0x2028 || n == 0x2029 || n == 0x202f || n == 0x205f
    || n == 0x3000

theorem isBlank_of_isWhitespace {c : Char} (h : c.isWhitespace = true) : isBlank c = true := by
  simp only [Char.isWhitespace, Bool.or_eq_true, decide_eq_true_eq] at h
  rcases h with ((rfl | rfl) | rfl) | rfl <;> decide

/-- The characters without the blanks at both ends. -/
def trimmed (cs : List Char) : List Char :=
  ((cs.dropWhile isBlank).reverse.dropWhile isBlank).reverse

def trim (s : String) : String := String.ofList (trimmed s.toList)

/-- An ASCII capital as its lower-case letter, any other character itself. -/
def lowerAscii (s : String) : String :=
  s.map fun c => if 'A' ≤ c ∧ c ≤ 'Z' then Char.ofNat (c.toNat + 32) else c

/-- What is wrong with the text of a number. -/
inductive NumberFault
  | empty
  | notADigit
  | tooLarge
  deriving DecidableEq

def NumberFault.message : NumberFault → String
  | empty => "cannot parse integer from empty string"
  | notADigit => "invalid digit found in string"
  | tooLarge => "number too large to fit in target type"

/-- The value of a decimal digit. -/
def digit? (c : Char) : Option Nat :=
  if '0' ≤ c ∧ c ≤ '9' then some (c.toNat - 48) else none

/-- `n` with more digits after it. -/
def readDigits (n : Nat) : List Char → Except NumberFault Nat
  | [] => .ok n
  | c :: cs =>
    match digit? c with
    | none => .error .notADigit
    | some d => if UInt64.size ≤ n * 10 + d then .error .tooLarge else readDigits (n * 10 + d) cs

/-- The machine word that a text writes. -/
def readWord (cs : List Char) : Except NumberFault Nat :=
  match cs with
  | [] => .error .empty
  | ['+'] => .error .notADigit
  | '+' :: cs => readDigits 0 cs
  | cs => readDigits 0 cs

example : readWord ['0', '0', '7'] = .ok 7 := rfl

example : readWord ['+', '5'] = .ok 5 := rfl

example : readWord ['+'] = .error .notADigit := rfl

end BlockTensor.Text

import BlockTensor.Text.CodePoints

/-!
# Quoted text

`quoted s` is `s` between double quotes. A double quote and a backslash inside
it are preceded by a backslash; NUL, tab, line feed and carriage return have
letters of their own; the characters of `isWrittenByCode` are written as their
hexadecimal code point in braces.
-/

namespace BlockTensor.Text

/-- The lower-case hexadecimal digits of a number. -/
def hexDigits (n : Nat) : String := String.ofList (Nat.toDigits 16 n)

/-- A character inside quotes. -/
def escaped (c : Char) : String :=
  if c = '\x00' then "\\0"
  else if c = '\t' then "\\t"
  else if c = '\r' then "\\r"
  else if c = '\n' then "\\n"
  else if c = '\\' then "\\\\"
  else if c = '"' then "\\\""
  else if isWrittenByCode c.toNat then "\\u\x7b" ++ hexDigits c.toNat ++ "\x7d"
  else c.toString

example : escaped 'a' = "a" ∧ escaped '"' = "\\\"" ∧ escaped '\x7f' = "\\u\x7b7f\x7d" := by
  decide +kernel

/-- A text between quotes. -/
def quoted (s : String) : String :=
  "\"" ++ String.join (s.toList.map escaped) ++ "\""

end BlockTensor.Text

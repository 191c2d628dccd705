import TensorKernel.Text.Invisible

/-!
Text of lists and of quoted characters, as messages show them: `[2, 3]`, `['i', 'k']`.
-/

namespace TensorKernel.Text

/-- The items between square brackets. -/
def bracketed (items : List String) : String :=
  "[" ++ String.intercalate ", " items ++ "]"

/-- A list of numbers, such as `[2, 3]`. -/
def numbers (ns : List Nat) : String :=
  bracketed (ns.map fun n => toString n)

/-- A character inside single quotes: the quote, the backslash and the common control characters
are escaped by a letter, other invisible characters by their number. -/
def escaped (c : Char) : String :=
  if c.toNat = 0 then "\\0"
  else if c = '\t' then "\\t"
  else if c = '\n' then "\\n"
  else if c = '\r' then "\\r"
  else if c = '\'' then "\\'"
  else if c = '\\' then "\\\\"
  else if isVisible c then String.singleton c
  else "\\u\x7b" ++ String.ofList (Nat.toDigits 16 c.toNat) ++ "\x7d"

def quoted (c : Char) : String :=
  "'" ++ escaped c ++ "'"

/-- A list of characters, such as `['i', 'k']`. -/
def characters (cs : List Char) : String :=
  bracketed (cs.map quoted)

end TensorKernel.Text

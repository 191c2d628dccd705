import TensorKernel.Serial.Document

/-!
JSON texts of documents, without blanks. Characters stand for themselves, except for quotes,
backslashes and control characters.
-/

namespace TensorKernel.Serial.Document

def escaped (c : Char) : String :=
  if c = '"' then "\\\""
  else if c = '\\' then "\\\\"
  else if c.toNat < 32 then
    let digits := Nat.toDigits 16 c.toNat
    "\\u" ++ String.ofList (List.replicate (4 - digits.length) '0' ++ digits)
  else String.singleton c

def quotedText (s : String) : String := "\"" ++ String.join (s.toList.map escaped) ++ "\""

/-- Documents hold whole numbers only where they are written. -/
def decimalText (d : Decimal) : String :=
  (if d.negative then "-" else "") ++ toString d.digits ++
    (if d.exponent = 0 then "" else "e" ++ toString d.exponent)

mutual

def render : Document → String
  | null => "null"
  | bool b => if b then "true" else "false"
  | number d => decimalText d
  | text s => quotedText s
  | list items => "[" ++ renderItems items ++ "]"
  | record entries => "\x7b" ++ renderEntries entries ++ "\x7d"

def renderItems : List Document → String
  | [] => ""
  | [item] => item.render
  | item :: items => item.render ++ "," ++ renderItems items

def renderEntries : List (String × Document) → String
  | [] => ""
  | [(name, value)] => quotedText name ++ ":" ++ value.render
  | (name, value) :: entries =>
    quotedText name ++ ":" ++ value.render ++ "," ++ renderEntries entries

end

end TensorKernel.Serial.Document

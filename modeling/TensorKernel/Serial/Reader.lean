import TensorKernel.Serial.Document

/-!
Documents from JSON texts. A text holds one document and blanks around it; lists and records nest as
deep as they like. Each reader takes a document off the front of a text and returns the rest.
-/

namespace TensorKernel.Serial

namespace Reader

def isBlank (c : Char) : Bool := c = ' ' || c = '\t' || c = '\n' || c = '\r'

def skipBlanks (cs : List Char) : List Char := cs.dropWhile isBlank

def digitsValue (digits : List Char) : Nat :=
  digits.foldl (fun n c => 10 * n + (c.toNat - '0'.toNat)) 0

/-- Digits at the front of a text, at least one. -/
def digits (cs : List Char) : Option (List Char × List Char) :=
  match cs.takeWhile Char.isDigit with
  | [] => none
  | ds => some (ds, cs.dropWhile Char.isDigit)

/-- The digits behind a point, if there is one. -/
def fraction (cs : List Char) : Option (Option (List Char) × List Char) :=
  match cs with
  | '.' :: rest => (digits rest).map fun (ds, rest) => (some ds, rest)
  | _ => some (none, cs)

def signed : List Char → Bool × List Char
  | '-' :: rest => (true, rest)
  | '+' :: rest => (false, rest)
  | rest => (false, rest)

/-- The exponent, if there is one. -/
def exponent (cs : List Char) : Option (Option Int × List Char) :=
  match cs with
  | 'e' :: rest | 'E' :: rest =>
    let (negative, rest) := signed rest
    (digits rest).map fun (ds, rest) =>
      let n : Int := digitsValue ds
      (some (if negative then -n else n), rest)
  | _ => some (none, cs)

/-- A number without leading zeros that a constant can hold. -/
def number (cs : List Char) : Option (Decimal × List Char) := do
  let (negative, cs) :=
    match cs with
    | '-' :: rest => (true, rest)
    | _ => (false, cs)
  let (integral, cs) ← digits cs
  if integral.head? = some '0' && 1 < integral.length then none
  else
    let (places, cs) ← fraction cs
    let (power, cs) ← exponent cs
    let value : Decimal :=
      { negative
        digits := digitsValue (integral ++ places.getD [])
        exponent := power.getD 0 - ((places.getD []).length : Int)
        whole := places.isNone && power.isNone }
    if value.toBinary64.isInfinite then none else pure (value, cs)

def hexDigit? (c : Char) : Option Nat :=
  if c.isDigit then some (c.toNat - '0'.toNat)
  else if 'a' ≤ c && c ≤ 'f' then some (c.toNat - 'a'.toNat + 10)
  else if 'A' ≤ c && c ≤ 'F' then some (c.toNat - 'A'.toNat + 10)
  else none

/-- Four hexadecimal digits. -/
def hexUnit : List Char → Option (Nat × List Char)
  | a :: b :: c :: d :: rest => do
    let ds ← [a, b, c, d].mapM hexDigit?
    pure (ds.foldl (fun n d => 16 * n + d) 0, rest)
  | _ => none

/-- A character that is escaped by its number, in two units if it is beyond the first 65536. -/
def numbered (cs : List Char) : Option (Char × List Char) := do
  let (unit, rest) ← hexUnit cs
  if 0xd800 ≤ unit && unit < 0xdc00 then
    match rest with
    | '\\' :: 'u' :: rest => do
      let (low, rest) ← hexUnit rest
      if 0xdc00 ≤ low && low < 0xe000 then
        pure (Char.ofNat (0x10000 + (unit - 0xd800) * 0x400 + (low - 0xdc00)), rest)
      else none
    | _ => none
  else if 0xdc00 ≤ unit && unit < 0xe000 then none
  else pure (Char.ofNat unit, rest)

/-- The character that a letter behind a backslash stands for. -/
def escape? : Char → Option Char
  | '"' => some '"'
  | '\\' => some '\\'
  | '/' => some '/'
  | 'b' => some (Char.ofNat 8)
  | 'f' => some (Char.ofNat 12)
  | 'n' => some '\n'
  | 'r' => some '\r'
  | 't' => some '\t'
  | _ => none

/-- The characters up to the closing quote, added to those in `found`, last one first. -/
def quoted (found : List Char) : Nat → List Char → Option (String × List Char)
  | 0, _ => none
  | fuel + 1, cs =>
    match cs with
    | [] => none
    | '"' :: rest => some (String.ofList found.reverse, rest)
    | '\\' :: 'u' :: rest => do
      let (c, rest) ← numbered rest
      quoted (c :: found) fuel rest
    | '\\' :: letter :: rest => do
      let c ← escape? letter
      quoted (c :: found) fuel rest
    | c :: rest => if c.toNat < 32 then none else quoted (c :: found) fuel rest

/-- A name for an entry of a record, between quotes. -/
def name (cs : List Char) : Option (String × List Char) :=
  match skipBlanks cs with
  | '"' :: rest => quoted [] (rest.length + 1) rest
  | _ => none

/-- The text behind a word, if the word stands at its front. -/
def word (expected : List Char) (value : Document) (cs : List Char) :
    Option (Document × List Char) :=
  if expected.isPrefixOf cs then some (value, cs.drop expected.length) else none

mutual

def document : Nat → List Char → Option (Document × List Char)
  | 0, _ => none
  | fuel + 1, cs =>
    match skipBlanks cs with
    | 'n' :: rest => word ['u', 'l', 'l'] .null rest
    | 't' :: rest => word ['r', 'u', 'e'] (.bool true) rest
    | 'f' :: rest => word ['a', 'l', 's', 'e'] (.bool false) rest
    | '"' :: rest => (quoted [] (rest.length + 1) rest).map fun (s, rest) => (.text s, rest)
    | '[' :: rest =>
      match skipBlanks rest with
      | ']' :: rest => some (.list [], rest)
      | rest => (items fuel rest).map fun (ds, rest) => (.list ds, rest)
    | '\x7b' :: rest =>
      match skipBlanks rest with
      | '\x7d' :: rest => some (.record [], rest)
      | rest => (entries fuel rest).map fun (es, rest) => (.record es, rest)
    | rest => (number rest).map fun (n, rest) => (.number n, rest)

/-- The items of a list up to its end. -/
def items : Nat → List Char → Option (List Document × List Char)
  | 0, _ => none
  | fuel + 1, cs => do
    let (item, rest) ← document fuel cs
    match skipBlanks rest with
    | ',' :: rest => do
      let (others, rest) ← items fuel rest
      pure (item :: others, rest)
    | ']' :: rest => pure ([item], rest)
    | _ => none

/-- The entries of a record up to its end. -/
def entries : Nat → List Char → Option ((List (String × Document)) × List Char)
  | 0, _ => none
  | fuel + 1, cs => do
    let (key, rest) ← name cs
    match skipBlanks rest with
    | ':' :: rest => do
      let (value, rest) ← document fuel rest
      match skipBlanks rest with
      | ',' :: rest => do
        let (others, rest) ← entries fuel rest
        pure ((key, value) :: others, rest)
      | '\x7d' :: rest => pure ([(key, value)], rest)
      | _ => none
    | _ => none

end

end Reader

/-- The document that a text stands for. Each step of a reader takes a character off the text, so
its length bounds the number of steps. -/
def Document.parse? (text : String) : Option Document :=
  let cs := text.toList
  match Reader.document (2 * cs.length + 2) cs with
  | some (d, rest) => if (Reader.skipBlanks rest).isEmpty then some d else none
  | none => none

end TensorKernel.Serial

import TensorKernel.Scalar.Binary64

/-!
Documents: the trees of values that JSON texts stand for. Numbers keep their decimal digits, so that
whole numbers of any size and constants can both be read from them.
-/

namespace TensorKernel.Serial

/-- A number as it was written: `digits * 10 ^ exponent`. -/
structure Decimal where
  negative : Bool
  digits : Nat
  exponent : Int
  /-- Written without fraction and exponent. -/
  whole : Bool
deriving DecidableEq

namespace Decimal

def ofNat (n : Nat) : Decimal := ⟨false, n, 0, true⟩

/-- A whole number of 64 bits. -/
def toNat? (d : Decimal) : Option Nat :=
  if d.whole && !d.negative && d.digits < 1 <<< 64 then some d.digits else none

def toBinary64 (d : Decimal) : Binary64 := .ofDecimal d.negative d.digits d.exponent

end Decimal

/-- A JSON value. The entries of a record stand in the order in which they were written. -/
inductive Document where
  | null
  | bool (value : Bool)
  | number (value : Decimal)
  | text (value : String)
  | list (items : List Document)
  | record (entries : List (String × Document))
deriving Inhabited

namespace Document

def nat (n : Nat) : Document := number (.ofNat n)

def nats (ns : List Nat) : Document := list (ns.map nat)

/-- Null where there is no value. -/
def optional {α : Type} (f : α → Document) : Option α → Document
  | some a => f a
  | none => null

def char (c : Char) : Document := text (String.singleton c)

/-- The entry of a record; of two entries of one name the last one counts. -/
def entry? (name : String) : Document → Option Document
  | record entries => (entries.reverse.find? fun e => e.1 = name).map Prod.snd
  | _ => none

def toNat? : Document → Option Nat
  | number d => d.toNat?
  | _ => none

def toBool? : Document → Option Bool
  | bool b => some b
  | _ => none

def toText? : Document → Option String
  | text s => some s
  | _ => none

def toChar? : Document → Option Char
  | text s =>
    match s.toList with
    | [c] => some c
    | _ => none
  | _ => none

def toList? : Document → Option (List Document)
  | list items => some items
  | _ => none

/-- A list of values of one kind. -/
def toListOf? {α : Type} (f : Document → Option α) (d : Document) : Option (List α) := do
  (← d.toList?).mapM f

def toNats? (d : Document) : Option (List Nat) := d.toListOf? toNat?

/-- Nothing where the document is null. -/
def toOptional? {α : Type} (f : Document → Option α) : Document → Option (Option α)
  | null => some none
  | d => (f d).map some

end Document

end TensorKernel.Serial

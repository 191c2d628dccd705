import TensorKernel.Text.Quoted

/-!
Index sets: ordered index names, each with an extent, as in `ik` of shape `3 × 4`. The order is the
storage order: the first index runs fastest. A name is looked up at its first place. The set
operations do to membership what their names say, and keep the order of what they keep.
-/

namespace TensorKernel

/-- Extents, one per dimension. -/
abbrev Shape := List Nat

structure Dim where
  name : Char
  extent : Nat
deriving DecidableEq, Inhabited

/-- The indices of a tensor expression in storage order. -/
structure Indices where
  dims : List Dim
deriving DecidableEq, Inhabited

namespace Indices

/-- The indices of a scalar. -/
def empty : Indices := ⟨[]⟩

def names (i : Indices) : List Char := i.dims.map Dim.name

def shape (i : Indices) : Shape := i.dims.map Dim.extent

def size (i : Indices) : Nat := i.dims.length

def isEmpty (i : Indices) : Bool := i.dims.isEmpty

/-- The names one after the other. -/
def text (i : Indices) : String := String.ofList i.names

/-- The names and extents, as messages about extents show them. -/
def description (i : Indices) : String :=
  "Indices \x7b names: " ++ Text.characters i.names ++ ", sizes: " ++ Text.numbers i.shape ++
    " \x7d"

def get? (i : Indices) (position : Nat) : Option Char := i.names[position]?

/-- The fastest index. -/
def first? (i : Indices) : Option Char := i.names.head?

def contains (i : Indices) (name : Char) : Bool := i.names.contains name

/-- The storage position of a name. -/
def find? (i : Indices) (name : Char) : Option Nat := i.names.idxOf? name

def extent? (i : Indices) (name : Char) : Option Nat :=
  (i.dims.find? fun d => d.name = name).map Dim.extent

/-- The storage positions of the names of `other`, ascending. -/
def positions? (i other : Indices) : Option (List Nat) :=
  (other.names.mapM i.find?).map fun found =>
    (List.range i.size).flatMap fun position => found.filter (· = position)

def subShape? (i : Indices) (names : List Char) : Option Shape :=
  names.mapM i.extent?

/-- The indices with the given names, in the order given. -/
def extract? (i : Indices) (names : List Char) : Option Indices :=
  (names.mapM fun name => (i.extent? name).map (Dim.mk name)).map Indices.mk

def filter (i : Indices) (keep : Char → Bool) : Indices :=
  ⟨i.dims.filter fun d => keep d.name⟩

/-- The indices that `other` has too. -/
def inter (i other : Indices) : Indices := i.filter other.contains

/-- The indices that `other` does not have. -/
def diff (i other : Indices) : Indices := i.filter fun name => !other.contains name

def without (i : Indices) (name : Char) : Indices := i.filter (· ≠ name)

/-- Adds a dimension at the end unless its name is there. -/
def insert (i : Indices) (d : Dim) : Indices :=
  if i.contains d.name then i else ⟨i.dims ++ [d]⟩

/-- The indices of `i`, followed by those of `other` that are new. -/
def merge (i other : Indices) : Indices := other.dims.foldl insert i

def sameNames (i other : Indices) : Bool :=
  i.size = other.size && i.names.all other.contains

/-- The indices in the order of `order`, with their own extents. -/
def permute? (i order : Indices) : Option Indices :=
  if i.sameNames order then i.extract? order.names else none

/-- The `p` with `order[k] = i[p[k]]` at each position `k`. -/
def permutationTo? (i order : Indices) : Option (List Nat) :=
  if i.sameNames order then order.names.mapM i.find? else none

/-- Whether `other` has each index of `i` with the same extent. -/
def isSubsetOf (i other : Indices) : Bool :=
  i.dims.all fun d => other.extent? d.name = some d.extent

/-- Whether the names that both have carry the same extents. -/
def agrees (i other : Indices) : Bool :=
  (i.inter other).names.all fun name => i.extent? name = other.extent? name

@[simp] theorem names_filter (i : Indices) (keep : Char → Bool) :
    (i.filter keep).names = i.names.filter keep := by
  simp [names, filter, List.filter_map, Function.comp_def]

theorem contains_insert (i : Indices) (d : Dim) (name : Char) :
    (i.insert d).contains name = (i.contains name || name == d.name) := by
  unfold insert
  rw [Bool.eq_iff_iff]
  split
  · next h =>
    simp only [Bool.or_eq_true, beq_iff_eq]
    exact ⟨Or.inl, fun h' => h'.elim id fun e => e ▸ h⟩
  · simp [contains, names]

theorem contains_merge (i other : Indices) (name : Char) :
    (i.merge other).contains name = (i.contains name || other.contains name) := by
  have fold (ds : List Dim) (i : Indices) :
      (ds.foldl insert i).contains name = (i.contains name || (ds.map Dim.name).contains name) := by
    induction ds generalizing i with
    | nil => simp
    | cons d ds ih =>
      rw [List.foldl_cons, ih, contains_insert, Bool.or_assoc, List.map_cons, List.contains_cons]
  exact fold other.dims i

end Indices

end TensorKernel

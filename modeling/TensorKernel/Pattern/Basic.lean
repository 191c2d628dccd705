import TensorKernel.Error

/-!
Non-zero patterns: which entries of a tensor may be non-zero. Entries are numbered column-major, the
first coordinate fastest: `offset` gives the number of an entry, `unravel` the entry of a number,
and inside the shape each undoes the other. A pattern is dense, or holds one flag per entry in that
order.
-/

namespace TensorKernel

/-- Coordinates, one per dimension. -/
abbrev Entry := List Nat

namespace Shape

def volume : Shape → Nat
  | [] => 1
  | n :: ns => n * volume ns

/-- The column-major number of an entry. -/
def offset : Shape → Entry → Nat
  | n :: ns, e :: es => e + n * offset ns es
  | _, _ => 0

/-- The entry with a column-major number. -/
def unravel : Shape → Nat → Entry
  | [], _ => []
  | n :: ns, o => o % n :: unravel ns (o / n)

/-- Whether an entry lies inside the shape. -/
def holds : Shape → Entry → Bool
  | [], [] => true
  | n :: ns, e :: es => e < n && holds ns es
  | _, _ => false

theorem offset_lt_volume {s : Shape} {e : Entry} (h : holds s e = true) : offset s e < volume s := by
  induction s generalizing e with
  | nil => cases e <;> simp_all [holds, offset, volume]
  | cons n ns ih =>
    cases e with
    | nil => simp [holds] at h
    | cons x xs =>
      simp only [holds, Bool.and_eq_true, decide_eq_true_eq] at h
      have := ih h.2
      simp only [offset, volume]
      calc x + n * offset ns xs < n + n * offset ns xs := by omega
        _ = n * (offset ns xs + 1) := by rw [Nat.mul_add, Nat.mul_one, Nat.add_comm]
        _ ≤ n * volume ns := Nat.mul_le_mul_left n this

theorem unravel_offset {s : Shape} {e : Entry} (h : holds s e = true) :
    unravel s (offset s e) = e := by
  induction s generalizing e with
  | nil => cases e <;> simp_all [holds, unravel]
  | cons n ns ih =>
    cases e with
    | nil => simp [holds] at h
    | cons x xs =>
      simp only [holds, Bool.and_eq_true, decide_eq_true_eq] at h
      have hn : 0 < n := by omega
      simp only [offset, unravel, Nat.add_mul_mod_self_left, Nat.mod_eq_of_lt h.1,
        Nat.add_mul_div_left _ _ hn, Nat.div_eq_of_lt h.1, Nat.zero_add, ih h.2]

theorem holds_unravel {s : Shape} {o : Nat} (h : o < volume s) : holds s (unravel s o) = true := by
  induction s generalizing o with
  | nil => rfl
  | cons n ns ih =>
    simp only [volume] at h
    have hn : 0 < n := Nat.pos_of_mul_pos_right (Nat.zero_lt_of_lt h)
    simp only [unravel, holds, Bool.and_eq_true, decide_eq_true_eq]
    exact ⟨Nat.mod_lt _ hn, ih ((Nat.div_lt_iff_lt_mul hn).2 (by rwa [Nat.mul_comm]))⟩

theorem offset_unravel {s : Shape} {o : Nat} (h : o < volume s) : offset s (unravel s o) = o := by
  induction s generalizing o with
  | nil => simp [volume] at h; simp [offset, h]
  | cons n ns ih =>
    simp only [volume] at h
    have hn : 0 < n := Nat.pos_of_mul_pos_right (Nat.zero_lt_of_lt h)
    simp only [unravel, offset]
    rw [ih ((Nat.div_lt_iff_lt_mul hn).2 (by rwa [Nat.mul_comm])), Nat.mod_add_div]

end Shape

/-- Which entries of a tensor may be non-zero. -/
inductive Pattern where
  /-- Every entry. -/
  | dense (shape : Shape)
  /-- The flagged entries, in column-major order. -/
  | masked (shape : Shape) (mask : List Bool)
deriving DecidableEq, Inhabited

namespace Pattern

def shape : Pattern → Shape
  | dense shape => shape
  | masked shape _ => shape

def isDense : Pattern → Bool
  | dense _ => true
  | masked .. => false

def mask? : Pattern → Option (List Bool)
  | dense _ => none
  | masked _ mask => some mask

/-- A mask has one flag for each entry of the shape. -/
def ofMask (shape : Shape) (mask : List Bool) : Result Pattern :=
  if mask.length = Shape.volume shape then .ok (masked shape mask)
  else refuse (.maskLength mask.length shape)

/-- The pattern whose flags stand at the given column-major numbers. -/
def ofOffsets (shape : Shape) (offsets : List Nat) : Pattern :=
  let clear := Array.replicate (Shape.volume shape) false
  masked shape (offsets.foldl (fun flags o => flags.setIfInBounds o true) clear).toList

theorem getElem?_foldl_mark (offsets : List Nat) (flags : Array Bool) (o : Nat) :
    (offsets.foldl (fun flags o => flags.setIfInBounds o true) flags)[o]? =
      flags[o]?.map fun flag => flag || offsets.contains o := by
  induction offsets generalizing flags with
  | nil => simp
  | cons p ps ih =>
    rw [List.foldl_cons, ih, Array.getElem?_setIfInBounds]
    by_cases hp : p = o
    · subst hp
      by_cases hs : p < flags.size <;> simp [hs]
    · have : o ≠ p := fun h => hp h.symm
      simp [hp, this]

/-- The flag at a number is set exactly if the number is listed. -/
theorem ofOffsets_eq (shape : Shape) (offsets : List Nat) :
    ofOffsets shape offsets =
      masked shape ((List.range (Shape.volume shape)).map fun o => offsets.contains o) := by
  refine congrArg (masked shape) ?_
  apply List.ext_getElem?
  intro o
  rw [Array.getElem?_toList, getElem?_foldl_mark]
  by_cases h : o < Shape.volume shape <;> simp [h]

/-- The pattern with the given non-zero entries, all of which have to lie inside the shape. -/
def ofEntries (shape : Shape) (entries : List Entry) : Result Pattern :=
  match entries.find? fun entry => !Shape.holds shape entry with
  | some entry => refuse (.entryOutside entry shape)
  | none => .ok (ofOffsets shape (entries.map (Shape.offset shape)))

/-- The column-major numbers of the flags that are set. -/
def flagged (mask : List Bool) : List Nat :=
  mask.zipIdx.filterMap fun (flag, offset) => if flag then some offset else none

/-- The non-zero entries in column-major order. -/
def entries : Pattern → List Entry
  | dense shape => (List.range (Shape.volume shape)).map (Shape.unravel shape)
  | masked shape mask => (flagged mask).map (Shape.unravel shape)

def countNonzero : Pattern → Nat
  | dense shape => Shape.volume shape
  | masked _ mask => mask.count true

/-- Whether an entry may be non-zero; an entry outside the shape is zero. -/
def isNonzero (p : Pattern) (entry : Entry) : Bool :=
  Shape.holds p.shape entry &&
    match p with
    | dense _ => true
    | masked shape mask => mask.getD (Shape.offset shape entry) false

/-- Widens the bounds of each dimension to hold an entry. -/
def widen (bounds : List (Nat × Nat)) (entry : Entry) : List (Nat × Nat) :=
  List.zipWith (fun (low, high) e => (min low e, max high e)) bounds entry

/-- The least and the greatest non-zero coordinate of each dimension, unless there is none. -/
def bounds? : Pattern → Option (List (Nat × Nat))
  | dense shape => if shape.contains 0 then none else some (shape.map fun n => (0, n - 1))
  | masked shape mask =>
    match (masked shape mask).entries with
    | [] => none
    | entry :: rest => some (rest.foldl widen (entry.map fun e => (e, e)))

/-- The values at the given positions. -/
def pick? {α : Type} (values : List α) (positions : List Nat) : Option (List α) :=
  positions.mapM fun p => values[p]?

/-- The values at the given positions, where they exist. -/
def pick {α : Type} (values : List α) (positions : List Nat) : List α :=
  positions.filterMap fun p => values[p]?

/-- The pattern whose dimension `i` is dimension `perm[i]`. -/
def transpose? (p : Pattern) (perm : List Nat) : Option Pattern :=
  (pick? p.shape perm).map fun shape =>
    match p with
    | dense _ => dense shape
    | masked .. => ofOffsets shape (p.entries.map fun e => Shape.offset shape (pick e perm))

end Pattern

end TensorKernel

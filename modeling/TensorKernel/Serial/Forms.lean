import TensorKernel.Config
import TensorKernel.Gemm.Cost
import TensorKernel.Layout
import TensorKernel.Scalar.Factor
import TensorKernel.Serial.Document

/-!
The written forms of values: a record with one entry per field, or a list of the fields in order.
The fields of one of several alternatives stand in a record only. Entries that a form does not know
are passed over, and no invariant of a value is checked.
-/

namespace TensorKernel.Serial

/-- The entries of a record that have the given names. -/
def entries? (names : List String) (d : Document) : Option (List Document) :=
  names.mapM d.entry?

/-- The fields of a form. In a record those in `optional` may be missing and are null then. -/
def fields? (names : List String) (optional : List String) (d : Document) :
    Option (List Document) :=
  match d with
  | .record _ => names.mapM fun name =>
    (d.entry? name).orElse fun _ => if optional.contains name then some .null else none
  | .list items => if items.length = names.length then some items else none
  | _ => none

/-- The name and the content of a form with alternatives: a record with entries of one name. -/
def alternative? (d : Document) : Option (String × Document) :=
  match d with
  | .record ((name, _) :: others) =>
    if others.all (·.1 = name) then (d.entry? name).map (Prod.mk name) else none
  | _ => none

/-- The written form of an index set: names and extents side by side. -/
structure IndicesForm where
  names : List Char
  sizes : List Nat

namespace IndicesForm

def ofDocument? (d : Document) : Option IndicesForm := do
  match ← fields? ["names", "sizes"] [] d with
  | [names, sizes] => pure ⟨← names.toListOf? Document.toChar?, ← sizes.toNats?⟩
  | _ => none

def document (f : IndicesForm) : Document :=
  .record [("names", .list (f.names.map Document.char)), ("sizes", .nats f.sizes)]

end IndicesForm

def rangeOf? (d : Document) : Option Range := do
  match ← fields? ["start", "stop"] [] d with
  | [start, stop] => pure ⟨← start.toNat?, ← stop.toNat?⟩
  | _ => none

def rangeDocument (r : Range) : Document :=
  .record [("start", .nat r.start), ("stop", .nat r.stop)]

def boxOf? (d : Document) : Option Box := do
  match ← fields? ["ranges"] [] d with
  | [ranges] => pure ⟨← ranges.toListOf? rangeOf?⟩
  | _ => none

def boxDocument (b : Box) : Document := .record [("ranges", .list (b.ranges.map rangeDocument))]

def costOf? (d : Document) : Option Gemm.Cost := do
  match ← fields? ["stride", "left_transpose", "right_transpose", "fused_indices"] [] d with
  | [strided, left, right, fused] =>
    pure ⟨← strided.toNat?, ← left.toNat?, ← right.toNat?, ← fused.toNat?⟩
  | _ => none

def costDocument (c : Gemm.Cost) : Document :=
  .record [("stride", .nat c.strided), ("left_transpose", .nat c.leftTransposed),
    ("right_transpose", .nat c.rightTransposed), ("fused_indices", .nat c.fused)]

def patternOf? (d : Document) : Option Pattern := do
  match ← alternative? d with
  | ("Dense", content) =>
    match ← entries? ["shape"] content with
    | [shape] => pure (.dense (← shape.toNats?))
    | _ => none
  | ("General", content) =>
    match ← entries? ["shape", "mask"] content with
    | [shape, mask] => pure (.masked (← shape.toNats?) (← mask.toListOf? Document.toBool?))
    | _ => none
  | _ => none

def patternDocument : Pattern → Document
  | .dense shape => .record [("Dense", .record [("shape", .nats shape)])]
  | .masked shape mask =>
    .record [("General", .record [("shape", .nats shape), ("mask", .list (mask.map .bool))])]

def layoutOf? (d : Document) : Option Layout := do
  let names := ["shape", "original_bbox", "bbox", "stride", "alignment"]
  match ← fields? names ["alignment"] d with
  | [shape, unaligned, box, strides, alignment] =>
    pure ⟨← shape.toNats?, ← boxOf? unaligned, ← boxOf? box, ← strides.toNats?,
      ← alignment.toOptional? Document.toNat?⟩
  | _ => none

def layoutDocument (l : Layout) : Document :=
  .record [("shape", .nats l.shape), ("original_bbox", boxDocument l.unaligned),
    ("bbox", boxDocument l.box), ("stride", .nats l.strides),
    ("alignment", .optional .nat l.alignment)]

/-- The form of a scalar that is bound when the kernel runs; its name is not checked. -/
def scalarOf? (d : Document) : Option String := do
  match ← fields? ["name"] [] d with
  | [name] => name.toText?
  | _ => none

def scalarDocument (name : String) : Document := .record [("name", .text name)]

def factorOf? (d : Document) : Option Factor := do
  match ← alternative? d with
  | ("Constant", .number value) => pure (.constant value.toBinary64)
  | ("Named", content) => pure (.named (← scalarOf? content))
  | _ => none

/-- Constants are written as texts. -/
def factorDocument : Factor → Document
  | .constant value => .record [("Constant", .text value.text)]
  | .named name => .record [("Named", scalarDocument name)]

def configNames : List String :=
  ["alignment", "align_stride", "simple_memory_layout", "enable_gemm_mapping",
   "substitute_backward"]

def configOf? (d : Document) : Option Config := do
  match ← fields? configNames [] d with
  | [alignment, align, simple, gemm, copies] =>
    pure ⟨← alignment.toNat?, ← align.toBool?, ← simple.toBool?, ← gemm.toBool?,
      ← copies.toBool?⟩
  | _ => none

def configDocument (c : Config) : Document :=
  .record (configNames.zip [.nat c.alignment, .bool c.alignStride, .bool c.simpleLayouts,
    .bool c.mapGemm, .bool c.eliminateCopies])

/-- A configuration from the fields that a record has; the others are as in the standard one. -/
def configOver? (d : Document) : Option Config :=
  match d with
  | .record _ => do
    let field {α : Type} (name : String) (read : Document → Option α) (standard : α) : Option α :=
      match d.entry? name with
      | some value => read value
      | none => some standard
    let standard := Config.standard
    pure ⟨← field "alignment" Document.toNat? standard.alignment,
      ← field "align_stride" Document.toBool? standard.alignStride,
      ← field "simple_memory_layout" Document.toBool? standard.simpleLayouts,
      ← field "enable_gemm_mapping" Document.toBool? standard.mapGemm,
      ← field "substitute_backward" Document.toBool? standard.eliminateCopies⟩
  | _ => none

end TensorKernel.Serial

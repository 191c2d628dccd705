import TensorKernel.Index.Basic

/-!
What can go wrong, as causes. A `CompositionError` blames the expression that was written, an
`InvariantError` a tree that a query or pass does not fit, a grouping error one tensor name used in
two ways. Each cause has a kind and a message; a `Diagnostic` is the pair that is shown.

Nodes, factors and tensors appear in causes by their text.
-/

namespace TensorKernel

/-- What went wrong while an expression was composed. -/
inductive CompositionKind where
  | nestedScalarMultiplication
  | shapeMismatch
  | invalidAssignTarget
  | notAnExpression
  | indexMismatch
  | invalidName
  | binaryArity
deriving DecidableEq

/-- Which property of a tree did not hold. -/
inductive InvariantKind where
  | unresolvedEinsum
  | missingIndices
  | missingSparsity
  | missingLayout
  | patternMismatch
deriving DecidableEq

namespace CompositionKind

def name : CompositionKind → String
  | nestedScalarMultiplication => "NestedScalarMultiplication"
  | shapeMismatch => "ShapeMismatch"
  | invalidAssignTarget => "InvalidAssignTarget"
  | notAnExpression => "NotAnExpression"
  | indexMismatch => "IndexMismatch"
  | invalidName => "InvalidName"
  | binaryArity => "BinaryArity"

def all : List CompositionKind :=
  [nestedScalarMultiplication, shapeMismatch, invalidAssignTarget, notAnExpression, indexMismatch,
   invalidName, binaryArity]

def ofName? (text : String) : Option CompositionKind := all.find? fun kind => kind.name = text

end CompositionKind

namespace InvariantKind

def name : InvariantKind → String
  | unresolvedEinsum => "UnresolvedEinsum"
  | missingIndices => "MissingIndices"
  | missingSparsity => "MissingSparsity"
  | missingLayout => "MissingLayout"
  | patternMismatch => "PatternMismatch"

def all : List InvariantKind :=
  [unresolvedEinsum, missingIndices, missingSparsity, missingLayout, patternMismatch]

def ofName? (text : String) : Option InvariantKind := all.find? fun kind => kind.name = text

end InvariantKind

/-- Why an expression cannot be composed, or a statement not be resolved. -/
inductive CompositionError where
  | rank (names : List Char) (shape : Shape)
  | repeatedIndex (names : List Char)
  | extents (shared left right : Indices)
  | maskLength (length : Nat) (shape : Shape)
  | entryOutside (entry : List Nat) (shape : Shape)
  | tensorPattern (pattern : Shape) (tensor : String) (shape : Shape)
  | invalidName (name : String)
  | nestedScalars
  | scaledNothing
  | scaleWithoutTerm
  | cannotAdd (factor node : String)
  | cannotSubtract (factor node : String)
  | cannotAssign (factor node : String)
  | operandWithoutIndices (operand : String)
  | notAnIndex (name : Char) (term : String)
  | sumIndices (sum left right : Indices)
  | emptyPartition (m k : Indices)
  | partition (m n k result left right : Indices)
  | assignTarget (node : String)
  | assignTargetChild
  | arity (kind : String)
  | cannotPermute (current : Indices) (node : String) (order : Indices)
  | fixedOrder (node : String) (order : Indices)
  | notDeduced (node : String)
  | freeIndices (node : String) (current required : Indices)
  | emptyProduct
  | targetIndex (name : Char) (target product : Indices)
  | notAnAssignment (node : String)
  /-- A cause that arose where `tensor` was indexed. -/
  | indexing (cause : CompositionError) (tensor : String)
  /-- A cause that arose on the right side of an assignment to `target`. -/
  | assigning (cause : CompositionError) (target : String)
deriving DecidableEq

namespace CompositionError

def kind : CompositionError → CompositionKind
  | rank .. | repeatedIndex .. | operandWithoutIndices .. | notAnIndex .. | sumIndices ..
  | emptyPartition .. | partition .. | cannotPermute .. | fixedOrder .. | notDeduced ..
  | freeIndices .. | emptyProduct | targetIndex .. | scaleWithoutTerm => .indexMismatch
  | extents .. | maskLength .. | entryOutside .. | tensorPattern .. => .shapeMismatch
  | invalidName .. => .invalidName
  | nestedScalars => .nestedScalarMultiplication
  | cannotAdd .. | cannotSubtract .. | cannotAssign .. => .notAnExpression
  | assignTarget .. | assignTargetChild | notAnAssignment .. => .invalidAssignTarget
  | scaledNothing | arity .. => .binaryArity
  | indexing cause _ | assigning cause _ => cause.kind

def message : CompositionError → String
  | rank names shape =>
    "Indices " ++ String.ofList names ++ " do not match tensor shape " ++ Text.numbers shape
  | repeatedIndex names => "Repeated indices are not allowed (" ++ String.ofList names ++ ")"
  | extents shared left right =>
    "Shared indices " ++ shared.text ++ " have different extents in " ++ left.description ++
      " and " ++ right.description
  | maskLength length shape =>
    "Mask of length " ++ toString length ++ " does not fit shape " ++ Text.numbers shape
  | entryOutside entry shape =>
    "Entry " ++ Text.numbers entry ++ " lies outside shape " ++ Text.numbers shape
  | tensorPattern pattern tensor shape =>
    "Pattern of shape " ++ Text.numbers pattern ++ " does not fit tensor " ++ tensor ++
      " of shape " ++ Text.numbers shape
  | invalidName name => "Tensor name invalid (must match [A-Za-z][A-Za-z0-9_]*): " ++ name
  | nestedScalars =>
    "Multiple multiplications with scalars are not allowed. Merge them into a single one."
  | scaledNothing | scaleWithoutTerm => "Scalar multiplication without term"
  | cannotAdd factor node =>
    "Unsupported operation: Cannot add " ++ factor ++ " to " ++ node ++ "."
  | cannotSubtract factor node =>
    "Unsupported operation: Cannot subtract " ++ factor ++ " from " ++ node ++ "."
  | cannotAssign factor node =>
    "Cannot assign " ++ factor ++ " to " ++ node ++ ": not an expression"
  | operandWithoutIndices operand => "Operand " ++ operand ++ " has no deduced indices"
  | notAnIndex name term =>
    "Cannot sum over " ++ String.singleton name ++ ": not an index of " ++ term
  | sumIndices sum left right =>
    "Summation indices " ++ sum.text ++ " do not occur in " ++ left.text ++ " or " ++ right.text
  | emptyPartition m k =>
    "GEMM partition needs non-empty M and K (M=" ++ m.text ++ ", K=" ++ k.text ++ ")"
  | partition m n k result left right =>
    "Partition M=" ++ m.text ++ " N=" ++ n.text ++ " K=" ++ k.text ++ " does not fit " ++
      result.text ++ " = " ++ left.text ++ " * " ++ right.text
  | assignTarget node => "First child of Assign node must be an IndexedTensor: " ++ node
  | assignTargetChild => "First child of Assign node must be an IndexedTensor"
  | arity kind => kind ++ " node must have exactly 2 children"
  | cannotPermute current node order =>
    "Cannot permute indices " ++ current.text ++ " of " ++ node ++ " to " ++ order.text
  | fixedOrder node order =>
    "Index order of " ++ node ++ " is fixed, cannot permute to " ++ order.text
  | notDeduced node => "Indices of " ++ node ++ " could not be deduced"
  | freeIndices node current required =>
    node ++ " has free indices " ++ current.text ++ ", but " ++ required.text ++ " are required"
  | emptyProduct => "Empty product"
  | targetIndex name target product =>
    "Target index " ++ String.singleton name ++ " of " ++ target.text ++
      " does not occur in the product over " ++ product.text
  | notAnAssignment node => "Kernel statements must be assignments, got " ++ node
  | indexing cause tensor => cause.message ++ " (tensor " ++ tensor ++ ")"
  | assigning cause target => cause.message ++ " (assigning to " ++ target ++ ")"

end CompositionError

/-- Why a query or a pass cannot be answered for a tree. -/
inductive InvariantError where
  | unresolved (node : String)
  | cannotLower (node : String)
  | indices (node : String)
  | operandCount (node : String) (count : Nat)
  | missingOperand (node : String)
  | sparsity (node : String)
  | emptySum
  | noOperand (node : String) (position : Nat)
  | layout (node : String)
  | patternShapes (left right : Shape)
  | descriptorSyntax (descriptor : List Char)
  | descriptorOperands (descriptor : List Char)
  | descriptorRanks (descriptor : List Char) (left right : Shape)
  | descriptorExtents (name : Char) (descriptor : List Char)
  | descriptorOutput (descriptor : List Char)
  | reductionRank (source : List Char) (shape : Shape)
  | reductionTarget (source target : List Char)
deriving DecidableEq

namespace InvariantError

def kind : InvariantError → InvariantKind
  | unresolved .. | cannotLower .. => .unresolvedEinsum
  | indices .. | operandCount .. | missingOperand .. => .missingIndices
  | sparsity .. | emptySum | noOperand .. => .missingSparsity
  | layout .. => .missingLayout
  | patternShapes .. | descriptorSyntax .. | descriptorOperands .. | descriptorRanks ..
  | descriptorExtents .. | descriptorOutput .. | reductionRank .. | reductionTarget .. =>
    .patternMismatch

def message : InvariantError → String
  | unresolved node => node ++ " must be resolved before sparsity or FLOP queries"
  | cannotLower node => "Cannot lower unresolved " ++ node
  | indices node => "Indices of " ++ node ++ " have not been deduced"
  | operandCount node count =>
    node ++ " must have exactly 2 children, has " ++ toString count
  | missingOperand node => node ++ " is missing an operand"
  | sparsity node => "Sparsity pattern of " ++ node ++ " has not been computed"
  | emptySum => "Add without operands"
  | noOperand node position => node ++ " has no operand " ++ toString position
  | layout node => "Memory layout of " ++ node ++ " has not been computed"
  | patternShapes left right =>
    "Cannot add patterns of shape " ++ Text.numbers left ++ " and " ++ Text.numbers right
  | descriptorSyntax descriptor => "Malformed einsum descriptor " ++ String.ofList descriptor
  | descriptorOperands descriptor =>
    "Einsum descriptor " ++ String.ofList descriptor ++ " needs two operands"
  | descriptorRanks descriptor left right =>
    "Descriptor " ++ String.ofList descriptor ++ " does not fit operand shapes " ++
      Text.numbers left ++ " and " ++ Text.numbers right
  | descriptorExtents name descriptor =>
    "Index " ++ String.singleton name ++ " has inconsistent extents in " ++
      String.ofList descriptor
  | descriptorOutput descriptor =>
    "Output of " ++ String.ofList descriptor ++ " uses an unknown index"
  | reductionRank source shape =>
    "Reduction source " ++ Text.characters source ++ " does not fit shape " ++ Text.numbers shape
  | reductionTarget source target =>
    "Cannot reduce " ++ Text.characters source ++ " to " ++ Text.characters target

end InvariantError

/-- The kind and message of an error, as they are shown. -/
inductive Diagnostic where
  | composition (kind : CompositionKind) (message : String)
  | invariant (kind : InvariantKind) (message : String)
  | grouping (base : String)
  /-- A dimension was addressed that does not exist. -/
  | noSuchDimension
deriving DecidableEq

namespace Diagnostic

def text : Diagnostic → String
  | composition kind message => message ++ " (" ++ kind.name ++ ")"
  | invariant kind message => message ++ " (" ++ kind.name ++ ")"
  | grouping base =>
    "grouped tensors and single tensors named " ++ base ++ " may not appear mixed in a kernel"
  | noSuchDimension => "no such dimension"

/-- The text, led by the class of the error. -/
def classified (d : Diagnostic) : String :=
  match d with
  | composition .. => "Composition error: " ++ d.text
  | invariant .. => "Invariant violation: " ++ d.text
  | grouping .. => "Grouping error: " ++ d.text
  | noSuchDimension => d.text

/-- The classified text followed by the text it was made from. -/
def chain (d : Diagnostic) : String := d.classified ++ ": " ++ d.text

end Diagnostic

/-- Everything that can go wrong. -/
inductive Error where
  | composition (cause : CompositionError)
  | invariant (cause : InvariantError)
  /-- The tensors of one base name are used both grouped and ungrouped. -/
  | grouping (base : String)
  /-- A permutation or position names a dimension beyond the rank. -/
  | noSuchDimension
deriving DecidableEq

namespace Error

def diagnostic : Error → Diagnostic
  | composition cause => .composition cause.kind cause.message
  | invariant cause => .invariant cause.kind cause.message
  | grouping base => .grouping base
  | noSuchDimension => .noSuchDimension

def text (e : Error) : String := e.diagnostic.text

/-- Applies `f` to the cause of a composition error. -/
def mapComposition (f : CompositionError → CompositionError) : Error → Error
  | composition cause => composition (f cause)
  | e => e

end Error

/-- A result, or the cause why there is none. -/
abbrev Result := Except Error

/-- Fails with a composition error. -/
def refuse {α : Type} (cause : CompositionError) : Result α := .error (.composition cause)

/-- Fails with an invariant error. -/
def violates {α : Type} (cause : InvariantError) : Result α := .error (.invariant cause)

/-- The value of a lookup among the dimensions. -/
def dimension {α : Type} : Option α → Result α
  | some value => .ok value
  | none => .error .noSuchDimension

end TensorKernel

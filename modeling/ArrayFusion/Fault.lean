import ArrayFusion.Merge.Mode
import ArrayFusion.Pattern
import ArrayFusion.Shape
import ArrayFusion.Signature
import ArrayFusion.Value
set_option autoImplicit false

/-!
Everything that can go wrong when descriptors, references and values disagree,
as causes. The wording of a cause is fixed by its `text` alone.
-/

namespace ArrayFusion

inductive ModeFault where
  | needsOutputInput (mode : MergeMode) (left right : Param)
  | needsInputs (left right : Param)
  | needsOutput (mode : MergeMode) (found : Param)
  deriving DecidableEq, Repr

def ModeFault.text : ModeFault → String
  | .needsOutputInput m a b =>
    m.name ++ " needs Out t / In t, found " ++ a.text ++ " / " ++ b.text
  | .needsInputs a b => "Shared needs In t / In t, found " ++ a.text ++ " / " ++ b.text
  | .needsOutput m a => m.name ++ " needs an output, found " ++ a.text

inductive ShapeFault where
  | wrongArguments (expected found : Signature)
  | takeOutside (pos : Nat) (source : Signature)
  | notPermutation (mapping : List Nat) (size : Nat)
  | notComposable (accepted given : Signature)
  | leftExhausted (mode : MergeMode) (pos : Nat)
  | rightExhausted (mode : MergeMode) (pos : Nat)
  | refused (pos : Nat) (cause : ModeFault)
  | notCovered (modes : List MergeMode) (left right : Signature)
  | differentArrays (mode : MergeMode)
  | listsDisagree (mode : MergeMode)
  | mergedTooShort
  | wrongNaturalOrder (operation : String) (produced expected : Signature)
  | wrongLeft (expected found : Signature)
  | wrongRight (expected found : Signature)
  | moreListsThanLeaves
  | noListForLeaf (operation : String)
  | fewIntermediates (modes : List MergeMode)
  deriving DecidableEq, Repr

def ShapeFault.text : ShapeFault → String
  | .wrongArguments s t => "expected argument list " ++ s.text ++ ", found " ++ t.text
  | .takeOutside n s => "cannot take position " ++ toString n ++ " out of " ++ s.text
  | .notPermutation w n =>
    bracketedNats w ++ " is not a permutation of " ++ toString n ++ " elements"
  | .notComposable s t => "cannot compose: " ++ s.text ++ " does not accept " ++ t.text
  | .leftExhausted m n => "mode " ++ m.name ++ " at " ++ toString n ++ " runs past left list"
  | .rightExhausted m n => "mode " ++ m.name ++ " at " ++ toString n ++ " runs past right list"
  | .refused n c => "at mode " ++ toString n ++ ": " ++ c.text
  | .notCovered ms l r =>
    "descriptor " ++ bracketed (ms.map MergeMode.name) ++ " does not cover " ++ l.text ++
      " and " ++ r.text
  | .differentArrays m => m.name ++ " fuses two different arrays"
  | .listsDisagree m => "descriptor and argument lists disagree at " ++ m.name
  | .mergedTooShort => "merged list too short for descriptor"
  | .wrongNaturalOrder op s t =>
    "permutation for " ++ op ++ " produces " ++ s.text ++ ", but " ++ op ++ " expects " ++ t.text
  | .wrongLeft s t => "descriptor expects left " ++ s.text ++ ", found " ++ t.text
  | .wrongRight s t => "descriptor expects right " ++ s.text ++ ", found " ++ t.text
  | .moreListsThanLeaves => "more leaf argument lists than leaves"
  | .noListForLeaf op => "no arguments for leaf " ++ op
  | .fewIntermediates ms => "not enough intermediates for " ++ MergeMode.listText ms

inductive InvariantFault where
  | notRebuildable (old new : Pattern)
  | projectsNonPair (ty : Ty)
  | indexesNonArray (r : Ref)
  | notStorable (elem : Ty)
  | wrongLength (shape : Shape) (length : Nat)
  | dangling (b : BufferId)
  | notScalar (v : Value)
  | notBuffer (v : Value)
  | notExtent (x : Literal)
  | cannotBind (v : Value) (p : Pattern)
  | notPair (v : Value)
  | notCondition (x : Literal)
  | tooFewArguments (p : Pattern)
  | tooManyArguments
  | divisionByZero
  | unaryRefused (op : UnaryOp) (x : Literal)
  | binaryRefused (op : BinaryOp) (x y : Literal)
  | wrongBufferCount (operation : String) (count : Nat)
  | shapesDiffer (shapes : List Shape)
  | wrongTemporaries (cluster : String) (needed given : Nat)
  | intermediateNotArray (p : Param)
  deriving DecidableEq, Repr

def InvariantFault.text : InvariantFault → String
  | .notRebuildable p q => "binder " ++ p.text ++ " cannot be rebuilt as " ++ q.text
  | .projectsNonPair t => "projection of non-pair type " ++ t.text
  | .indexesNonArray r => "index into " ++ r.text ++ " of non-array type " ++ r.ty.text
  | .notStorable t => "cannot store " ++ t.text ++ " in a buffer"
  | .wrongLength shape n =>
    "buffer of shape " ++ shape.text ++ " needs " ++ toString shape.volume ++
      " elements, got " ++ toString n
  | .dangling b => "dangling buffer " ++ b.text
  | .notScalar v => "expected a scalar, found " ++ v.tagged
  | .notBuffer v => "expected a buffer, found " ++ v.tagged
  | .notExtent x => x.text ++ " is not an extent"
  | .cannotBind v p => "cannot bind " ++ v.tagged ++ " to " ++ p.text
  | .notPair v => "projection from non-pair " ++ v.tagged
  | .notCondition x => "condition evaluated to " ++ x.text
  | .tooFewArguments p => "too few arguments for " ++ p.text
  | .tooManyArguments => "too many arguments for scalar function"
  | .divisionByZero => "integer division by zero"
  | .unaryRefused op x => op.name ++ " applied to " ++ x.text
  | .binaryRefused op x y => op.name ++ " applied to " ++ x.text ++ " and " ++ y.text
  | .wrongBufferCount op n => op ++ " received " ++ toString n ++ " buffers"
  | .shapesDiffer shapes =>
    "elementwise operation over shapes " ++ bracketed (shapes.map Shape.text)
  | .wrongTemporaries c m n =>
    c ++ " needs " ++ toString m ++ " temporaries, got " ++ toString n
  | .intermediateNotArray p => "intermediate " ++ p.text ++ " is not an array"

inductive Fault where
  | shape (cause : ShapeFault)
  /-- A reference or position past the end of what it points into. -/
  | outOfRange (index len : Nat)
  | typeMismatch (expected found : Ty)
  | invariant (cause : InvariantFault)
  deriving DecidableEq, Repr

def Fault.text : Fault → String
  | .shape c => "shape mismatch: " ++ c.text
  | .outOfRange i n =>
    "index " ++ toString i ++ " out of range for environment of " ++ toString n ++ " slots"
  | .typeMismatch t u => "type mismatch: expected " ++ t.text ++ ", found " ++ u.text
  | .invariant c => "internal invariant violated: " ++ c.text

end ArrayFusion

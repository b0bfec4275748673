import ArrayFusion.Actual
import ArrayFusion.Cluster.Arguments
import ArrayFusion.Cluster.Dataflow
set_option autoImplicit false

namespace ArrayFusion

namespace Cluster

def allocate : List (Param × Shape) → Action Heap (List Actual)
  | [] => pure []
  | (p, shape) :: rest =>
    match p.ty.asArray with
    | none => throw (.invariant (.intermediateNotArray p))
    | some (_, elem) => do
      let b ← Heap.alloc elem shape
      let others ← allocate rest
      pure (.output b p.ty :: others)

variable {Op : Type} [Executable Op]

/-- Runs leaves by position, each with its own argument list. A position without a
leaf is passed over. -/
def runOrder (leaves : List Op) (lists : List (List Actual)) : List Nat → Action Heap Unit
  | [] => pure ()
  | i :: is => do
    match leaves[i]?, lists[i]? with
    | some op, some args => Executable.execute op args
    | _, _ => pure ()
    runOrder leaves lists is

def runLeaves (c : Cluster Op) (args inner : List Actual) : Action Heap Unit := do
  let lists ← Action.ofExcept (c.leafArguments args inner)
  runOrder c.leaves lists c.schedule

def freeAll (temporaries : List Actual) (h : Heap) : Heap :=
  (temporaries.filterMap Actual.buffer?).foldl Heap.free h

/-- `shapes` has the extents of each temporary, in the order of the intermediates. -/
def run (c : Cluster Op) (args : List Actual) (shapes : List Shape) : Action Heap Unit := do
  if c.intermediates.length ≠ shapes.length then
    throw (.invariant (.wrongTemporaries c.text c.intermediates.length shapes.length))
  let temporaries ← allocate (c.intermediates.zip shapes)
  Action.afterwards (freeAll temporaries) (c.runLeaves args temporaries)

end Cluster

end ArrayFusion

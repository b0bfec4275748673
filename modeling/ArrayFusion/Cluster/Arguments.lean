import ArrayFusion.Cluster
import ArrayFusion.Merge.Arguments
set_option autoImplicit false

namespace ArrayFusion

namespace Cluster

variable {Op α : Type} [Operation Op] [Argument α]

/-- What the leaves of a part of a cluster pass to the outside, what stays
inside, and the lists of the leaves further to the right. -/
structure Gathered (α : Type) where
  external : List α
  inner : List α
  rest : List (List α)

/-- Each leaf takes the next list, in its natural order. -/
def gather : Cluster Op → List (List α) → Except Fault (Gathered α)
  | .leaf op _, [] => .error (.shape (.noListForLeaf (Operation.name op)))
  | .leaf _ perm, args :: rest => do
    let external ← perm.invert.apply args
    .ok ⟨external, [], rest⟩
  | .branch l r d, lists => do
    let gl ← l.gather lists
    let gr ← r.gather gl.rest
    let merged ← d.combine gl.external gr.external
    let inner ← d.inner gl.external gr.external
    .ok ⟨merged, inner ++ gl.inner ++ gr.inner, gr.rest⟩

def combineArguments (c : Cluster Op) (lists : List (List α)) :
    Except Fault (List α × List α) := do
  let g ← c.gather lists
  if g.rest.isEmpty then .ok (g.external, g.inner)
  else .error (.shape .moreListsThanLeaves)

def intermediateArguments (c : Cluster Op) (lists : List (List α)) :
    Except Fault (List α) := do
  let (_, inner) ← c.combineArguments lists
  .ok inner

/-- The lists of the leaves, and the intermediates that belong further to the right. -/
def distribute : Cluster Op → List α → List α → Except Fault (List (List α) × List α)
  | .leaf _ perm, args, inner => do
    let natural ← perm.apply args
    .ok ([natural], inner)
  | .branch l r d, args, inner =>
    let n := d.consumed.length
    if inner.length < n then .error (.shape (.fewIntermediates d.modes))
    else do
      let (la, ra) ← d.split args (inner.take n)
      let (ll, rest) ← l.distribute la (inner.drop n)
      let (rl, rest) ← r.distribute ra rest
      .ok (ll ++ rl, rest)

def leafArguments (c : Cluster Op) (args inner : List α) : Except Fault (List (List α)) := do
  c.external.check args
  c.intermediates.check inner
  let (lists, _) ← c.distribute args inner
  .ok lists

end Cluster

end ArrayFusion

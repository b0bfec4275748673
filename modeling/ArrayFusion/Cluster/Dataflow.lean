import ArrayFusion.Cluster
set_option autoImplicit false

namespace ArrayFusion

/-- A writing leaf and a leaf that reads what it wrote, by position. -/
abbrev Edge := Nat × Nat

/-- Uses of the merged arguments out of those of the left and the right ones.
An array that both sides read is used by the readers of either. -/
def mergeUses : List MergeMode → List (List Nat) → List (List Nat) → List (List Nat)
  | .consumed :: ms, l, r => mergeUses ms l.tail r.tail
  | .kept :: ms, l, r => l.headD [] :: mergeUses ms l.tail r.tail
  | .shared :: ms, l, r => (l.headD [] ++ r.headD []).eraseDups :: mergeUses ms l.tail r.tail
  | .rightOnly :: ms, l, r | .rightOnlyOut :: ms, l, r => r.headD [] :: mergeUses ms l r.tail
  | .leftOnly :: ms, l, r | .leftOnlyOut :: ms, l, r => l.headD [] :: mergeUses ms l.tail r
  | [], _, _ => []

def mergeEdges : List MergeMode → List (List Nat) → List (List Nat) → List Edge
  | .consumed :: ms, l, r | .kept :: ms, l, r =>
    (l.headD []).flatMap (fun w => (r.headD []).map (fun c => (w, c))) ++
      mergeEdges ms l.tail r.tail
  | .shared :: ms, l, r => mergeEdges ms l.tail r.tail
  | .rightOnly :: ms, l, r | .rightOnlyOut :: ms, l, r => mergeEdges ms l r.tail
  | .leftOnly :: ms, l, r | .leftOnlyOut :: ms, l, r => mergeEdges ms l.tail r
  | [], _, _ => []

/-- The first pending leaf all of whose producers are done runs next, as long as
there is one. -/
def scheduleFrom (edges : List Edge) (pending : List Nat) : List Nat :=
  match _h : pending.find? (fun i => edges.all fun e => e.2 != i || !pending.contains e.1) with
  | none => []
  | some i => i :: scheduleFrom edges (pending.erase i)
termination_by pending.length
decreasing_by
  have hi : i ∈ pending := List.mem_of_find?_eq_some _h
  have := List.length_erase_of_mem hi
  have := List.length_pos_of_mem hi
  omega

namespace Cluster

variable {Op : Type}

/-- For each argument of a cluster whose first leaf is leaf `first`, the leaves
that use it: writers of an output, readers of anything else. -/
def users : Cluster Op → Nat → List (List Nat)
  | .leaf _ perm, first => perm.source.map fun _ => [first]
  | .branch l r d, first =>
    mergeUses d.modes (l.users first) (r.users (first + l.leafCount))

def edgesFrom : Cluster Op → Nat → List Edge
  | .leaf _ _, _ => []
  | .branch l r d, first =>
    l.edgesFrom first ++ r.edgesFrom (first + l.leafCount) ++
      mergeEdges d.modes (l.users first) (r.users (first + l.leafCount))

def dependencies (c : Cluster Op) : List Edge := (c.edgesFrom 0).eraseDups

def schedule (c : Cluster Op) : List Nat :=
  scheduleFrom c.dependencies (List.range c.leafCount)

def executionOrder (c : Cluster Op) : List Op :=
  c.schedule.filterMap (c.leaves[·]?)

end Cluster

end ArrayFusion

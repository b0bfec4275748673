import ArrayFusion.Merge
import ArrayFusion.Permutation
set_option autoImplicit false

/-!
Clusters: operations fused into one unit. A leaf holds one operation with the
permutation from the cluster's argument order into the operation's natural one;
a branch merges the argument lists of two clusters.
-/

namespace ArrayFusion

inductive Cluster (Op : Type) where
  | leaf (op : Op) (perm : Permutation)
  | branch (left right : Cluster Op) (merge : Merge)

namespace Cluster

variable {Op : Type}

def external : Cluster Op → Signature
  | .leaf _ perm => perm.source
  | .branch _ _ d => d.result

def leaves : Cluster Op → List Op
  | .leaf op _ => [op]
  | .branch l r _ => l.leaves ++ r.leaves

def leafCount : Cluster Op → Nat
  | .leaf _ _ => 1
  | .branch l r _ => l.leafCount + r.leafCount

@[simp] theorem length_leaves (c : Cluster Op) : c.leaves.length = c.leafCount := by
  induction c with
  | leaf op p => rfl
  | branch l r d hl hr => simp [leaves, leafCount, hl, hr]

/-- The arrays that stay inside: a branch's own, then those of its left part,
then those of its right part. -/
def intermediates : Cluster Op → Signature
  | .leaf _ _ => []
  | .branch l r d => d.consumed ++ l.intermediates ++ r.intermediates

variable [Operation Op]

/-- Every leaf permutes its arguments into the natural order of its operation,
and every merge is of the argument lists of the two parts it joins. -/
def WellFormed : Cluster Op → Prop
  | .leaf op perm => perm.target = Operation.signature op
  | .branch l r d =>
    d.left = l.external ∧ d.right = r.external ∧ l.WellFormed ∧ r.WellFormed

def leaf? (op : Op) (perm : Permutation) : Except Fault (Cluster Op) :=
  if perm.target = Operation.signature op then .ok (.leaf op perm)
  else .error (.shape
    (.wrongNaturalOrder (Operation.name op) perm.target (Operation.signature op)))

def single (op : Op) : Cluster Op :=
  .leaf op (.identity (Operation.signature op))

/-- A leaf whose argument `i` is natural argument `order[i]`. -/
def reordered (op : Op) (order : List Nat) : Except Fault (Cluster Op) := do
  let perm ← Permutation.ofMapping? (Operation.signature op) order
  leaf? op perm.invert

def branch? (l r : Cluster Op) (d : Merge) : Except Fault (Cluster Op) :=
  if d.left ≠ l.external then .error (.shape (.wrongLeft d.left l.external))
  else if d.right ≠ r.external then .error (.shape (.wrongRight d.right r.external))
  else .ok (.branch l r d)

def fuse (l r : Cluster Op) (modes : List MergeMode) : Except Fault (Cluster Op) := do
  let d ← Merge.of? modes l.external r.external
  branch? l r d

theorem wellFormed_leaf? {op : Op} {perm : Permutation} {c : Cluster Op}
    (h : leaf? op perm = .ok c) : c.WellFormed := by
  unfold leaf? at h
  split at h <;> cases h
  assumption

theorem wellFormed_single (op : Op) : (single op).WellFormed := rfl

theorem wellFormed_reordered {op : Op} {order : List Nat} {c : Cluster Op}
    (h : reordered op order = .ok c) : c.WellFormed := by
  unfold reordered at h
  cases hp : Permutation.ofMapping? (Operation.signature op) order with
  | error e => rw [hp] at h ; cases h
  | ok p => rw [hp] at h ; exact wellFormed_leaf? h

theorem wellFormed_branch? {l r c : Cluster Op} {d : Merge}
    (hl : l.WellFormed) (hr : r.WellFormed) (h : branch? l r d = .ok c) : c.WellFormed := by
  unfold branch? at h
  split at h
  · cases h
  · rename_i h₁
    split at h
    · cases h
    · rename_i h₂
      cases h
      exact ⟨Decidable.not_not.1 h₁, Decidable.not_not.1 h₂, hl, hr⟩

theorem wellFormed_fuse {l r c : Cluster Op} {modes : List MergeMode}
    (hl : l.WellFormed) (hr : r.WellFormed) (h : fuse l r modes = .ok c) : c.WellFormed := by
  unfold fuse at h
  cases hd : Merge.of? modes l.external r.external with
  | error e => rw [hd] at h ; cases h
  | ok d => rw [hd] at h ; exact wellFormed_branch? hl hr h

instance : Operation (Cluster Op) where
  name c := "cluster" ++ bracketed (c.leaves.map Operation.name)
  signature := external

def text : Cluster Op → String
  | .leaf op perm =>
    if perm.isIdentity then Operation.name op else Operation.name op ++ perm.text
  | .branch l r d => "(" ++ l.text ++ " " ++ d.text ++ " " ++ r.text ++ ")"

end Cluster

end ArrayFusion

import ArrayFusion.Merge
set_option autoImplicit false

namespace ArrayFusion

variable {α : Type} [Argument α]

namespace MergeMode

/-- The merged list, and the left arguments that stay inside. Arguments fused
with each other have to denote one array, of which the left one is taken; where
a list has run out, the other one passes its argument on alone. -/
def combine : List MergeMode → List α → List α → Except Fault (List α × List α)
  | [], _, _ => .ok ([], [])
  | .consumed :: ms, a :: l, b :: r =>
    if Argument.sameArray a b then do
      let (merged, inner) ← combine ms l r
      .ok (merged, a :: inner)
    else .error (.shape (.differentArrays .consumed))
  | .kept :: ms, a :: l, b :: r =>
    if Argument.sameArray a b then do
      let (merged, inner) ← combine ms l r
      .ok (a :: merged, inner)
    else .error (.shape (.differentArrays .kept))
  | .shared :: ms, a :: l, b :: r =>
    if Argument.sameArray a b then do
      let (merged, inner) ← combine ms l r
      .ok (a :: merged, inner)
    else .error (.shape (.differentArrays .shared))
  | .rightOnly :: ms, l, x :: r | .rightOnlyOut :: ms, l, x :: r
  | .leftOnly :: ms, x :: l, r | .leftOnlyOut :: ms, x :: l, r => do
    let (merged, inner) ← combine ms l r
    .ok (x :: merged, inner)
  | .consumed :: ms, x :: l, [] | .kept :: ms, x :: l, [] | .shared :: ms, x :: l, [] => do
    let (merged, inner) ← combine ms l []
    .ok (x :: merged, inner)
  | .consumed :: ms, [], x :: r | .kept :: ms, [], x :: r | .shared :: ms, [], x :: r => do
    let (merged, inner) ← combine ms [] r
    .ok (x :: merged, inner)
  | m :: _, _, _ => .error (.shape (.listsDisagree m))

def split : List MergeMode → List α → List α → Except Fault (List α × List α)
  | [], _, _ => .ok ([], [])
  | .consumed :: ms, merged, x :: inner => do
    let (l, r) ← split ms merged inner
    .ok (x :: l, Argument.toInput x :: r)
  | .kept :: ms, x :: merged, inner => do
    let (l, r) ← split ms merged inner
    .ok (x :: l, Argument.toInput x :: r)
  | .shared :: ms, x :: merged, inner => do
    let (l, r) ← split ms merged inner
    .ok (x :: l, x :: r)
  | .rightOnly :: ms, x :: merged, inner | .rightOnlyOut :: ms, x :: merged, inner => do
    let (l, r) ← split ms merged inner
    .ok (l, x :: r)
  | .leftOnly :: ms, x :: merged, inner | .leftOnlyOut :: ms, x :: merged, inner => do
    let (l, r) ← split ms merged inner
    .ok (x :: l, r)
  | _ :: _, _, _ => .error (.shape .mergedTooShort)

end MergeMode

namespace Merge

def combineBoth (d : Merge) (l r : List α) : Except Fault (List α × List α) := do
  d.left.check l
  d.right.check r
  MergeMode.combine d.modes l r

def combine (d : Merge) (l r : List α) : Except Fault (List α) := do
  let (merged, _) ← d.combineBoth l r
  .ok merged

def inner (d : Merge) (l r : List α) : Except Fault (List α) := do
  let (_, inner) ← d.combineBoth l r
  .ok inner

def split (d : Merge) (merged inner : List α) : Except Fault (List α × List α) := do
  d.result.check merged
  d.consumed.check inner
  MergeMode.split d.modes merged inner

def combineSignatures (d : Merge) (l r : Signature) : Except Fault Signature :=
  d.combine l r

end Merge

end ArrayFusion

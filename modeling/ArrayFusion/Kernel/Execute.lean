import ArrayFusion.Actual
import ArrayFusion.Expr.Eval
import ArrayFusion.Kernel
set_option autoImplicit false

/-!
Running a kernel. The output is written position by position, so an element
that faults leaves the positions before it written.
-/

namespace ArrayFusion

namespace Kernel

def element (f : Fn) (heap : Heap) (args : List Literal) : Except Fault Literal := do
  let v ← f.apply [] heap (args.map .scalar)
  v.asLiteral

def fill (output : BufferId) (elementAt : Heap → Nat → Except Fault Literal) :
    (todo i : Nat) → Action Heap Unit
  | 0, _ => pure ()
  | todo + 1, i => do
    let x ← Action.observe (elementAt · i)
    Heap.write output i x
    fill output elementAt todo (i + 1)

def mapAt (f : Fn) (input : BufferId) (heap : Heap) (i : Nat) : Except Fault Literal := do
  let x ← heap.read input i
  element f heap [x]

def zipAt (f : Fn) (left right : BufferId) (heap : Heap) (i : Nat) : Except Fault Literal := do
  let x ← heap.read left i
  let y ← heap.read right i
  element f heap [x, y]

def generateAt (f : Fn) (heap : Heap) (i : Nat) : Except Fault Literal :=
  element f heap [.int (Int64.ofNat i)]

def execute (k : Kernel) (args : List Actual) : Action Heap Unit := do
  Action.ofExcept (k.signature.check args)
  match k, args.filterMap Actual.buffer? with
  | .map _ _ _ f, [input, output] => do
    let n ← Action.observe (·.commonVolume [input, output])
    fill output (mapAt f input) n 0
  | .zipWith _ _ _ _ f, [left, right, output] => do
    let n ← Action.observe (·.commonVolume [left, right, output])
    fill output (zipAt f left right) n 0
  | .generate _ _ f, [output] => do
    let b ← Action.observe (·.buffer output)
    fill output (generateAt f) b.data.length 0
  | k, buffers => throw (.invariant (.wrongBufferCount k.name buffers.length))

end Kernel

instance : Executable Kernel where
  execute := Kernel.execute

end ArrayFusion

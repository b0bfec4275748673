import ArrayFusion.Actual
import ArrayFusion.Expr.Eval
import ArrayFusion.Program
set_option autoImplicit false

namespace ArrayFusion

structure Machine where
  env : Stack
  heap : Heap
  deriving DecidableEq, Repr

namespace Machine

variable {α : Type}

def onEnv (x : Action Stack α) : Action Machine α :=
  Action.onPart Machine.env (fun s m => { m with env := s }) x

def onHeap (x : Action Heap α) : Action Machine α :=
  Action.onPart Machine.heap (fun h m => { m with heap := h }) x

def truncate (len : Nat) (m : Machine) : Machine := { m with env := m.env.truncate len }

end Machine

def Operand.resolve (env : Stack) : Operand → Except Fault Actual
  | .scalar r => do
    let v ← env.lookup r
    let x ← v.asLiteral
    .ok (.scalar x)
  | .function f => .ok (.function f)
  | .input _ r => do
    let v ← env.lookup r
    let b ← v.asBuffer
    .ok (.input b r.ty)
  | .output _ r => do
    let v ← env.lookup r
    let b ← v.asBuffer
    .ok (.output b r.ty)

def resolveAll (env : Stack) : List Operand → Except Fault (List Actual)
  | [] => .ok []
  | o :: os => do
    let a ← o.resolve env
    let as ← resolveAll env os
    .ok (a :: as)

def Stack.extents (env : Stack) : List Ref → Except Fault Shape
  | [] => .ok []
  | r :: rs => do
    let v ← env.lookup r
    let n ← v.asExtent
    let ns ← extents env rs
    .ok (n :: ns)

namespace Program

variable {Op : Type} [Executable Op]

def run : Program Op → Action Machine Value
  | .exec op args => do
    let actuals ← Action.observe (resolveAll ·.env args)
    Machine.onHeap (Executable.execute op actuals)
    pure .unit
  | .ret t => Action.observe (t.value ·.env)
  | .compute e => Action.observe fun m => Action.answer (e.eval m.env m.heap) []
  | .alloc elem shape => do
    let extents ← Action.observe (·.env.extents shape)
    let b ← Machine.onHeap (Heap.alloc elem extents)
    pure (.buffer b)
  | .letIn p bound body => do
    let v ← bound.run
    let before ← get
    Machine.onEnv (p.bind v)
    Action.afterwards (Machine.truncate before.env.length) body.run
  | .cond test onTrue onFalse => do
    let v ← Action.observe (·.env.lookup test)
    match ← Action.ofExcept v.asLiteral with
    | .bool true => onTrue.run
    | .bool false => onFalse.run
    | x => throw (.invariant (.notCondition x))

end Program

end ArrayFusion

import ArrayFusion.Action
set_option autoImplicit false

/-!
The heap of buffers. A buffer is named by its place in the order of
allocation, and a freed place stays empty, so that no name is given out twice.
-/

namespace ArrayFusion

structure Buffer where
  shape : Shape
  data : List Literal
  deriving DecidableEq, Repr

/-- One cell for every buffer ever made, empty once the buffer is freed. -/
structure Heap where
  cells : List (Option Buffer)
  deriving DecidableEq, Repr

def zeroOf : Ty → Except Fault Literal
  | .con .bool _ => .ok (.bool false)
  | .con (.int _) _ | .con (.uint _) _ => .ok (.int 0)
  | .con (.float _) _ => .ok (.float 0)
  | t => .error (.invariant (.notStorable t))

namespace Heap

def empty : Heap := ⟨[]⟩

def next (h : Heap) : Nat := h.cells.length

def find? (h : Heap) (b : BufferId) : Option Buffer := h.cells[b.number]?.join

def WellSized (h : Heap) : Prop :=
  ∀ b x, h.find? b = some x → x.data.length = x.shape.volume

def buffer (h : Heap) (b : BufferId) : Except Fault Buffer :=
  match h.find? b with
  | some x => .ok x
  | none => .error (.invariant (.dangling b))

def read (h : Heap) (b : BufferId) (i : Nat) : Except Fault Literal := do
  let x ← h.buffer b
  match x.data[i]? with
  | some v => .ok v
  | none => .error (.outOfRange i x.data.length)

def live (h : Heap) : List (BufferId × Buffer) :=
  h.cells.zipIdx.filterMap fun (cell, n) => cell.map (⟨n⟩, ·)

def size (h : Heap) : Nat := h.cells.countP Option.isSome

def insert (x : Buffer) : Action Heap BufferId := fun h =>
  .ok ⟨h.next⟩ ⟨h.cells ++ [some x]⟩

def alloc (elem : Ty) (shape : Shape) : Action Heap BufferId := do
  let zero ← Action.ofExcept (zeroOf elem)
  insert ⟨shape, List.replicate shape.volume zero⟩

def store (shape : Shape) (data : List Literal) : Action Heap BufferId :=
  if shape.volume = data.length then insert ⟨shape, data⟩
  else throw (.invariant (.wrongLength shape data.length))

def write (b : BufferId) (i : Nat) (v : Literal) : Action Heap Unit := fun h =>
  match h.find? b with
  | none => .error (.invariant (.dangling b)) h
  | some x =>
    if i < x.data.length then
      .ok () ⟨h.cells.set b.number (some ⟨x.shape, x.data.set i v⟩)⟩
    else .error (.outOfRange i x.data.length) h

/-- Freeing a buffer that is not live changes nothing. -/
def free (h : Heap) (b : BufferId) : Heap := ⟨h.cells.set b.number none⟩

def commonVolume (h : Heap) (bs : List BufferId) : Except Fault Nat := do
  let buffers ← bs.mapM h.buffer
  match buffers.map Buffer.shape with
  | [] => .ok 0
  | s :: ss =>
    if ss.all (· = s) then .ok s.volume
    else .error (.invariant (.shapesDiffer (s :: ss)))

end Heap

end ArrayFusion

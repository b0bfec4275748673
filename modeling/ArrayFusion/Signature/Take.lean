import ArrayFusion.Signature.Argument
set_option autoImplicit false

namespace ArrayFusion

structure Take where
  pos : Nat
  source : Signature
  pos_lt : pos < source.length

namespace Take

def of? (pos : Nat) (source : Signature) : Except Fault Take :=
  if h : pos < source.length then .ok ⟨pos, source, h⟩
  else .error (.shape (.takeOutside pos source))

def element (t : Take) : Param := t.source.get ⟨t.pos, t.pos_lt⟩

def remainder (t : Take) : Signature := t.source.eraseIdx t.pos

variable {α : Type} [Argument α]

def apply (t : Take) (args : List α) : Except Fault (α × List α) :=
  if h : t.source = signatureOf args then
    .ok (args.get ⟨t.pos, by have := t.pos_lt ; simpa [h] using this⟩, args.eraseIdx t.pos)
  else .error (.shape (.wrongArguments t.source (signatureOf args)))

end Take

variable {α : Type} [Argument α]

def takeAt (pos : Nat) (args : List α) : Except Fault (α × List α) := do
  let t ← Take.of? pos (signatureOf args)
  t.apply args

end ArrayFusion

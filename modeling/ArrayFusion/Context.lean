import ArrayFusion.Fault
set_option autoImplicit false

/-!
Typed environments. The innermost slot comes first, so that a reference counts
from the head of the list.
-/

namespace ArrayFusion

abbrev Context := List Ty

namespace Context

def push (Γ : Context) (t : Ty) : Context := t :: Γ

def enter (Γ : Context) (p : Pattern) : Context := p.slotTys ++ Γ

@[simp] theorem length_enter (Γ : Context) (p : Pattern) :
    (Γ.enter p).length = p.size + Γ.length := by
  simp [enter]

def truncate (Γ : Context) (len : Nat) : Context := Γ.drop (Γ.length - len)

theorem truncate_enter (Γ : Context) (p : Pattern) :
    (Γ.enter p).truncate Γ.length = Γ := by
  simp [enter, truncate]

def slot (Γ : Context) (index : Nat) : Except Fault Ty :=
  match Γ[index]? with
  | some t => .ok t
  | none => .error (.outOfRange index Γ.length)

def lookup (Γ : Context) (r : Ref) : Except Fault Ty := do
  let t ← Γ.slot r.index
  if t = r.ty then .ok t else .error (.typeMismatch t r.ty)

theorem lookup_eq_ok_iff {Γ : Context} {r : Ref} {t : Ty} :
    Γ.lookup r = .ok t ↔ Γ[r.index]? = some t ∧ r.ty = t := by
  unfold lookup slot
  cases h : Γ[r.index]? with
  | none => simp [bind, Except.bind]
  | some u =>
    simp only [bind, Except.bind, Option.some.injEq]
    split <;> simp_all [eq_comm]

/-- Slots from the outermost to the innermost. -/
def text (Γ : Context) : String := bracketed (Γ.reverse.map Ty.text)

end Context

end ArrayFusion

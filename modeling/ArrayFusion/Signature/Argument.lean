import ArrayFusion.Fault
set_option autoImplicit false

namespace ArrayFusion

class Argument (α : Type) where
  param : α → Param
  /-- Whether two buffer arguments denote the same array. -/
  sameArray : α → α → Bool
  /-- The reading counterpart of an output; any other argument is kept. -/
  toInput : α → α

/-- Two arguments of the same array that differ in role alone are the output
and its reading counterpart. -/
class LawfulArgument (α : Type) [Argument α] : Prop where
  param_toInput : ∀ {a : α} {t : Ty}, Argument.param a = ⟨.output, t⟩ →
    Argument.param (Argument.toInput a) = ⟨.input, t⟩
  sameArray_toInput : ∀ {a : α} {t : Ty}, Argument.param a = ⟨.output, t⟩ →
    Argument.sameArray a (Argument.toInput a) = true
  eq_toInput : ∀ {a b : α} {t : Ty}, Argument.param a = ⟨.output, t⟩ →
    Argument.param b = ⟨.input, t⟩ → Argument.sameArray a b = true → b = Argument.toInput a
  sameArray_self : ∀ {a : α} {t : Ty}, Argument.param a = ⟨.input, t⟩ →
    Argument.sameArray a a = true
  eq_of_sameArray : ∀ {a b : α} {t : Ty}, Argument.param a = ⟨.input, t⟩ →
    Argument.param b = ⟨.input, t⟩ → Argument.sameArray a b = true → a = b

variable {α : Type} [Argument α]

def signatureOf (args : List α) : Signature := args.map Argument.param

@[simp] theorem signatureOf_nil : signatureOf ([] : List α) = [] := rfl

@[simp] theorem signatureOf_cons (a : α) (args : List α) :
    signatureOf (a :: args) = Argument.param a :: signatureOf args := rfl

@[simp] theorem length_signatureOf (args : List α) :
    (signatureOf args).length = args.length := by
  simp [signatureOf]

def Signature.check (s : Signature) (args : List α) : Except Fault Unit :=
  if s = signatureOf args then .ok ()
  else .error (.shape (.wrongArguments s (signatureOf args)))

theorem Signature.check_eq_ok_iff {s : Signature} {args : List α} :
    s.check args = .ok () ↔ s = signatureOf args := by
  unfold check
  split <;> simp_all

instance : Argument Param where
  param p := p
  sameArray p q := p.isBuffer && q.isBuffer && p.ty = q.ty
  toInput p := if p.role = .output then ⟨.input, p.ty⟩ else p

instance : LawfulArgument Param where
  param_toInput h := by subst h ; rfl
  sameArray_toInput h := by subst h ; simp [Argument.sameArray, Argument.toInput, Param.isBuffer]
  eq_toInput h₁ h₂ _ := by
    simp only [Argument.param] at h₁ h₂
    subst h₁ h₂ ; rfl
  sameArray_self h := by subst h ; simp [Argument.sameArray, Param.isBuffer]
  eq_of_sameArray h₁ h₂ _ := h₁.trans h₂.symm

@[simp] theorem signatureOf_params (s : Signature) : signatureOf s = s := by
  simp [signatureOf, Argument.param]

end ArrayFusion

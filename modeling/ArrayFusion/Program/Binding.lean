import ArrayFusion.Reindexing.Terms
set_option autoImplicit false

namespace ArrayFusion

/-- For every slot of the pattern, topmost first, the reference it would be
bound to; nothing if the tuple does not have the pattern's form. -/
def Pattern.substitution? : Pattern → Tuple → Option (List Ref)
  | .wild _, _ => some []
  | .slot t, .ref r => if t = r.ty then some [r] else none
  | .pair p q, .pair a b => do
    let rs ← p.substitution? a
    let ss ← q.substitution? b
    some (ss ++ rs)
  | _, _ => none

theorem Pattern.length_substitution? {p : Pattern} {t : Tuple} {refs : List Ref}
    (h : p.substitution? t = some refs) : refs.length = p.size := by
  induction p generalizing t refs with
  | wild u => simp [substitution?] at h ; subst h ; rfl
  | slot u =>
    cases t <;> simp [substitution?] at h
    obtain ⟨_, rfl⟩ := h ; rfl
  | pair p q hp hq =>
    cases t <;> simp [substitution?, Option.bind_eq_some_iff] at h
    obtain ⟨rs, hrs, ss, hss, rfl⟩ := h
    simp [size, hp hrs, hq hss, Nat.add_comm]

namespace Program

variable {Op : Type}

/-- Lifts a term over `above` slots that it does not know of, `known` slots from the top. -/
def lift (above known : Nat) : Reindexing := (Reindexing.weaken above).sink known

theorem total_lift (above known : Nat) : (lift above known).Total :=
  (Reindexing.total_weaken above).sink known

/-- Binds `bound` to `p` in `body`. A binding in bound position floats out of it,
an empty return that nothing receives is dropped, and returned references take
the place of the slots they would be bound to. -/
def letBind : Pattern → Program Op → Program Op → Program Op
  | p, .letIn q a b, body =>
    letBind q a (letBind p b (body.rename (lift q.size p.size) (total_lift _ _)))
  | p, .ret t, body =>
    if p.discards && t = .unit then body
    else match p.substitution? t with
      | some refs => body.rename (.substitute refs) (Reindexing.total_substitute refs)
      | none => .letIn p (.ret t) body
  | p, bound, body => .letIn p bound body

def resultTuple (t : Ty) : Tuple := (Pattern.ofTy t).tuple?.getD .unit

/-- The bindings of a program, `known` of whose slots have been passed, around the
pair of `first` and its result. The `above` slots below all of them belong to
`first` and are new to the program. -/
def pairAfter (first : Tuple) (above : Nat) : Nat → Program Op → Program Op
  | known, .letIn p bound body =>
    .letIn p (bound.rename (lift above known) (total_lift _ _))
      (pairAfter first above (known + p.size) body)
  | known, .ret t =>
    .ret (.pair (first.weaken known) (t.rename (lift above known) (total_lift _ _)))
  | known, other =>
    let p := Pattern.ofTy other.ty
    .letIn p (other.rename (lift above known) (total_lift _ _))
      (.ret (.pair (first.weaken (known + p.size))
        ((resultTuple other.ty).rename (lift above (known + p.size)) (total_lift _ _))))

def pairFrom (second : Program Op) : Nat → Program Op → Program Op
  | depth, .letIn p bound body => .letIn p bound (pairFrom second (depth + p.size) body)
  | depth, .ret t => pairAfter t depth 0 second
  | depth, other =>
    let p := Pattern.ofTy other.ty
    .letIn p other (pairAfter (resultTuple other.ty) (depth + p.size) 0 second)

def pair (first second : Program Op) : Program Op := pairFrom second 0 first

/-- Tries to discard the `todo` slots of a pattern that lie below its `kept`
topmost ones, one after the other; a slot that the body uses is kept. -/
def sweep : (todo kept : Nat) → Pattern → Program Op → Pattern × Program Op
  | 0, _, p, body => (p, body)
  | todo + 1, kept, p, body =>
    match p.dropSlot? kept with
    | none => (p, body)
    | some q =>
      match Reindexing.underRebuilt (.weaken 0) p q with
      | .error _ => sweep todo (kept + 1) p body
      | .ok m =>
        match body.reindex m with
        | some body' => sweep todo kept q body'
        | none => sweep todo (kept + 1) p body

/-- Discards the slots of the outermost binding that its body does not use. A
return that then binds nothing goes away altogether. -/
def dropUnused : Program Op → Program Op
  | .letIn p bound body =>
    let (q, body') := sweep p.size 0 p body
    if q.discards && bound.isReturn then body' else .letIn q bound body'
  | other => other

end Program

end ArrayFusion

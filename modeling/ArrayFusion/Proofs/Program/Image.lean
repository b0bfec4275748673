import ArrayFusion.Reindexing.Terms
import Mathlib.Data.List.Forall2
set_option autoImplicit false

/-!
What a term becomes when it is reindexed: it is built as before, with the image of each
reference in the place of the reference. What is said of terms and their images can be
proved by induction on how an image is built.
-/

namespace ArrayFusion

variable {Op : Type} {m : Reindexing}

inductive Tuple.Image (m : Reindexing) : Tuple → Tuple → Prop where
  | unit : Image m .unit .unit
  | ref {r r' : Ref} : m r = some r' → Image m (.ref r) (.ref r')
  | pair {a a' b b' : Tuple} : Image m a a' → Image m b b' → Image m (.pair a b) (.pair a' b')

inductive Expr.Image (m : Reindexing) : Expr → Expr → Prop where
  | letIn {p : Pattern} {a a' b b' : Expr} :
    Image m a a' → Image m b b' → Image m (.letIn p a b) (.letIn p a' b')
  | var {r : Ref} : Image m (.var r) (.var r)
  | const {x : Literal} : Image m (.const x) (.const x)
  | unary {op : UnaryOp} {a a' : Expr} : Image m a a' → Image m (.unary op a) (.unary op a')
  | binary {op : BinaryOp} {a a' b b' : Expr} :
    Image m a a' → Image m b b' → Image m (.binary op a b) (.binary op a' b')
  | pair {a a' b b' : Expr} : Image m a a' → Image m b b' → Image m (.pair a b) (.pair a' b')
  | nil : Image m .nil .nil
  | fst {a a' : Expr} : Image m a a' → Image m (.fst a) (.fst a')
  | snd {a a' : Expr} : Image m a a' → Image m (.snd a) (.snd a')
  | cond {a a' b b' c c' : Expr} :
    Image m a a' → Image m b b' → Image m c c' → Image m (.cond a b c) (.cond a' b' c')
  | read {r r' : Ref} {a a' : Expr} :
    m r = some r' → Image m a a' → Image m (.read r a) (.read r' a')
  | param {r r' : Ref} {a a' : Expr} :
    m r = some r' → Image m a a' → Image m (.param r a) (.param r' a')

inductive Fn.Image (m : Reindexing) : Fn → Fn → Prop where
  | lam {p : Pattern} {f f' : Fn} : Image m f f' → Image m (.lam p f) (.lam p f')
  | body {e e' : Expr} : e.Image m e' → Image m (.body e) (.body e')

def ImageRefs (m : Reindexing) : List Ref → List Ref → Prop :=
  List.Forall₂ fun r r' => m r = some r'

inductive Operand.Image (m : Reindexing) : Operand → Operand → Prop where
  | scalar {r r' : Ref} : m r = some r' → Image m (.scalar r) (.scalar r')
  | function {f f' : Fn} : f.Image m f' → Image m (.function f) (.function f')
  | input {shape shape' : List Ref} {b b' : Ref} :
    ImageRefs m shape shape' → m b = some b' → Image m (.input shape b) (.input shape' b')
  | output {shape shape' : List Ref} {b b' : Ref} :
    ImageRefs m shape shape' → m b = some b' → Image m (.output shape b) (.output shape' b')

inductive Program.Image : Reindexing → Program Op → Program Op → Prop where
  | exec {m : Reindexing} {op : Op} {args args' : List Operand} :
    List.Forall₂ (Operand.Image m) args args' → Image m (.exec op args) (.exec op args')
  | ret {m : Reindexing} {t t' : Tuple} : t.Image m t' → Image m (.ret t) (.ret t')
  | compute {m : Reindexing} {e e' : Expr} : e.Image m e' → Image m (.compute e) (.compute e')
  | alloc {m : Reindexing} {elem : Ty} {shape shape' : List Ref} :
    ImageRefs m shape shape' → Image m (.alloc elem shape) (.alloc elem shape')
  | letIn {m : Reindexing} {p : Pattern} {a a' b b' : Program Op} :
    Image m a a' → Image (m.under p) b b' → Image m (.letIn p a b) (.letIn p a' b')
  | cond {m : Reindexing} {r r' : Ref} {a a' b b' : Program Op} :
    m r = some r' → Image m a a' → Image m b b' → Image m (.cond r a b) (.cond r' a' b')

theorem Tuple.reindex_eq_some_iff {t t' : Tuple} : t.reindex m = some t' ↔ t.Image m t' := by
  constructor
  · intro h
    induction t generalizing t' with
    | unit =>
      cases h
      exact .unit
    | ref r =>
      obtain ⟨_, hr, h⟩ := Option.bind_eq_some_iff.1 h
      cases h
      exact .ref hr
    | pair a b iha ihb =>
      obtain ⟨_, ha, h⟩ := Option.bind_eq_some_iff.1 h
      obtain ⟨_, hb, h⟩ := Option.bind_eq_some_iff.1 h
      cases h
      exact .pair (iha ha) (ihb hb)
  · intro h
    induction h with
    | unit => rfl
    | ref hr => simp [reindex, hr]
    | pair _ _ iha ihb => simp [reindex, iha, ihb]

theorem Tuple.image_rename (h : m.Total) (t : Tuple) : t.Image m (t.rename m h) :=
  reindex_eq_some_iff.1 (reindex_eq_rename h t)

theorem Expr.reindex_eq_some_iff {e e' : Expr} : e.reindex m = some e' ↔ e.Image m e' := by
  constructor
  · intro h
    induction e generalizing e' with
    | var _ | const _ | nil =>
      cases h
      constructor
    | unary op a ih | fst a ih | snd a ih =>
      obtain ⟨_, ha, h⟩ := Option.bind_eq_some_iff.1 h
      cases h
      constructor
      exact ih ha
    | letIn p a b iha ihb | binary op a b iha ihb | pair a b iha ihb =>
      obtain ⟨_, ha, h⟩ := Option.bind_eq_some_iff.1 h
      obtain ⟨_, hb, h⟩ := Option.bind_eq_some_iff.1 h
      cases h
      constructor
      · exact iha ha
      · exact ihb hb
    | cond a b c iha ihb ihc =>
      obtain ⟨_, ha, h⟩ := Option.bind_eq_some_iff.1 h
      obtain ⟨_, hb, h⟩ := Option.bind_eq_some_iff.1 h
      obtain ⟨_, hc, h⟩ := Option.bind_eq_some_iff.1 h
      cases h
      exact .cond (iha ha) (ihb hb) (ihc hc)
    | read r a ih | param r a ih =>
      obtain ⟨_, hr, h⟩ := Option.bind_eq_some_iff.1 h
      obtain ⟨_, ha, h⟩ := Option.bind_eq_some_iff.1 h
      cases h
      constructor
      · exact hr
      · exact ih ha
  · intro h
    induction h with
    | var | const | nil => rfl
    | unary _ ih | fst _ ih | snd _ ih => simp [reindex, ih]
    | letIn _ _ iha ihb | binary _ _ iha ihb | pair _ _ iha ihb => simp [reindex, iha, ihb]
    | cond _ _ _ iha ihb ihc => simp [reindex, iha, ihb, ihc]
    | read hr _ ih | param hr _ ih => simp [reindex, hr, ih]

theorem Fn.reindex_eq_some_iff {f f' : Fn} : f.reindex m = some f' ↔ f.Image m f' := by
  constructor
  · intro h
    induction f generalizing f' with
    | lam p f ih =>
      obtain ⟨_, hf, h⟩ := Option.bind_eq_some_iff.1 h
      cases h
      exact .lam (ih hf)
    | body e =>
      obtain ⟨_, he, h⟩ := Option.bind_eq_some_iff.1 h
      cases h
      exact .body (Expr.reindex_eq_some_iff.1 he)
  · intro h
    induction h with
    | lam _ ih => simp [reindex, ih]
    | body he => simp [reindex, Expr.reindex_eq_some_iff.2 he]

theorem reindexRefs_eq_some_iff {rs rs' : List Ref} :
    reindexRefs m rs = some rs' ↔ ImageRefs m rs rs' := by
  constructor
  · intro h
    induction rs generalizing rs' with
    | nil =>
      cases h
      exact .nil
    | cons r rs ih =>
      obtain ⟨_, hr, h⟩ := Option.bind_eq_some_iff.1 h
      obtain ⟨_, hrs, h⟩ := Option.bind_eq_some_iff.1 h
      cases h
      exact .cons hr (ih hrs)
  · intro h
    induction h with
    | nil => rfl
    | cons hr _ ih => simp [reindexRefs, hr, ih]

theorem Operand.reindex_eq_some_iff {o o' : Operand} :
    o.reindex m = some o' ↔ o.Image m o' := by
  constructor
  · intro h
    cases o with
    | scalar r =>
      obtain ⟨_, hr, h⟩ := Option.bind_eq_some_iff.1 h
      cases h
      exact .scalar hr
    | function f =>
      obtain ⟨_, hf, h⟩ := Option.bind_eq_some_iff.1 h
      cases h
      exact .function (Fn.reindex_eq_some_iff.1 hf)
    | input shape b | output shape b =>
      obtain ⟨_, hs, h⟩ := Option.bind_eq_some_iff.1 h
      obtain ⟨_, hb, h⟩ := Option.bind_eq_some_iff.1 h
      cases h
      constructor
      · exact reindexRefs_eq_some_iff.1 hs
      · exact hb
  · intro h
    cases h with
    | scalar hr => simp [reindex, hr]
    | function hf => simp [reindex, Fn.reindex_eq_some_iff.2 hf]
    | input hs hb | output hs hb => simp [reindex, reindexRefs_eq_some_iff.2 hs, hb]

theorem reindexOperands_eq_some_iff {os os' : List Operand} :
    reindexOperands m os = some os' ↔ List.Forall₂ (Operand.Image m) os os' := by
  constructor
  · intro h
    induction os generalizing os' with
    | nil =>
      cases h
      exact .nil
    | cons o os ih =>
      obtain ⟨_, ho, h⟩ := Option.bind_eq_some_iff.1 h
      obtain ⟨_, hos, h⟩ := Option.bind_eq_some_iff.1 h
      cases h
      exact .cons (Operand.reindex_eq_some_iff.1 ho) (ih hos)
  · intro h
    induction h with
    | nil => rfl
    | cons ho _ ih => simp [reindexOperands, Operand.reindex_eq_some_iff.2 ho, ih]

theorem Program.reindex_eq_some_iff {t t' : Program Op} :
    t.reindex m = some t' ↔ t.Image m t' := by
  constructor
  · intro h
    induction t generalizing m t' with
    | exec op args =>
      obtain ⟨_, ha, h⟩ := Option.bind_eq_some_iff.1 h
      cases h
      exact .exec (reindexOperands_eq_some_iff.1 ha)
    | ret t =>
      obtain ⟨_, ht, h⟩ := Option.bind_eq_some_iff.1 h
      cases h
      exact .ret (Tuple.reindex_eq_some_iff.1 ht)
    | compute e =>
      obtain ⟨_, he, h⟩ := Option.bind_eq_some_iff.1 h
      cases h
      exact .compute (Expr.reindex_eq_some_iff.1 he)
    | alloc elem shape =>
      obtain ⟨_, hs, h⟩ := Option.bind_eq_some_iff.1 h
      cases h
      exact .alloc (reindexRefs_eq_some_iff.1 hs)
    | letIn p a b iha ihb =>
      obtain ⟨_, ha, h⟩ := Option.bind_eq_some_iff.1 h
      obtain ⟨_, hb, h⟩ := Option.bind_eq_some_iff.1 h
      cases h
      exact .letIn (iha ha) (ihb hb)
    | cond r a b iha ihb =>
      obtain ⟨_, hr, h⟩ := Option.bind_eq_some_iff.1 h
      obtain ⟨_, ha, h⟩ := Option.bind_eq_some_iff.1 h
      obtain ⟨_, hb, h⟩ := Option.bind_eq_some_iff.1 h
      cases h
      exact .cond hr (iha ha) (ihb hb)
  · intro h
    induction h with
    | exec ha => simp [reindex, reindexOperands_eq_some_iff.2 ha]
    | ret ht => simp [reindex, Tuple.reindex_eq_some_iff.2 ht]
    | compute he => simp [reindex, Expr.reindex_eq_some_iff.2 he]
    | alloc hs => simp [reindex, reindexRefs_eq_some_iff.2 hs]
    | letIn _ _ iha ihb => simp [reindex, iha, ihb]
    | cond hr _ _ iha ihb => simp [reindex, hr, iha, ihb]

end ArrayFusion

import ArrayFusion.Program
import ArrayFusion.Reindexing
set_option autoImplicit false

/-!
Reindexing whole terms. Every reference into the array-level environment goes
through the map, which is sunk under each array-level binder on the way; scalar
binders and scalar variables live in an environment of their own and stay as
they are. One reference without an image leaves the whole term without one.
-/

namespace ArrayFusion

variable {Op : Type}

def Tuple.reindex (m : Reindexing) : Tuple → Option Tuple
  | .unit => some .unit
  | .ref r => do
    let r ← m r
    some (.ref r)
  | .pair a b => do
    let a ← a.reindex m
    let b ← b.reindex m
    some (.pair a b)

def Expr.reindex (m : Reindexing) : Expr → Option Expr
  | .letIn p bound body => do
    let bound ← bound.reindex m
    let body ← body.reindex m
    some (.letIn p bound body)
  | .var r => some (.var r)
  | .const x => some (.const x)
  | .unary op e => do
    let e ← e.reindex m
    some (.unary op e)
  | .binary op a b => do
    let a ← a.reindex m
    let b ← b.reindex m
    some (.binary op a b)
  | .pair a b => do
    let a ← a.reindex m
    let b ← b.reindex m
    some (.pair a b)
  | .nil => some .nil
  | .fst e => do
    let e ← e.reindex m
    some (.fst e)
  | .snd e => do
    let e ← e.reindex m
    some (.snd e)
  | .cond test onTrue onFalse => do
    let test ← test.reindex m
    let onTrue ← onTrue.reindex m
    let onFalse ← onFalse.reindex m
    some (.cond test onTrue onFalse)
  | .read r e => do
    let r ← m r
    let e ← e.reindex m
    some (.read r e)
  | .param r e => do
    let r ← m r
    let e ← e.reindex m
    some (.param r e)

def Fn.reindex (m : Reindexing) : Fn → Option Fn
  | .lam p f => do
    let f ← f.reindex m
    some (.lam p f)
  | .body e => do
    let e ← e.reindex m
    some (.body e)

def reindexRefs (m : Reindexing) : List Ref → Option (List Ref)
  | [] => some []
  | r :: rs => do
    let r ← m r
    let rs ← reindexRefs m rs
    some (r :: rs)

def Operand.reindex (m : Reindexing) : Operand → Option Operand
  | .scalar r => do
    let r ← m r
    some (.scalar r)
  | .function f => do
    let f ← f.reindex m
    some (.function f)
  | .input shape b => do
    let shape ← reindexRefs m shape
    let b ← m b
    some (.input shape b)
  | .output shape b => do
    let shape ← reindexRefs m shape
    let b ← m b
    some (.output shape b)

def reindexOperands (m : Reindexing) : List Operand → Option (List Operand)
  | [] => some []
  | o :: os => do
    let o ← o.reindex m
    let os ← reindexOperands m os
    some (o :: os)

def Program.reindex (m : Reindexing) : Program Op → Option (Program Op)
  | .exec op args => do
    let args ← reindexOperands m args
    some (.exec op args)
  | .ret t => do
    let t ← t.reindex m
    some (.ret t)
  | .compute e => do
    let e ← e.reindex m
    some (.compute e)
  | .alloc elem shape => do
    let shape ← reindexRefs m shape
    some (.alloc elem shape)
  | .letIn p bound body => do
    let bound ← bound.reindex m
    let body ← body.reindex (m.under p)
    some (.letIn p bound body)
  | .cond test onTrue onFalse => do
    let test ← m test
    let onTrue ← onTrue.reindex m
    let onFalse ← onFalse.reindex m
    some (.cond test onTrue onFalse)

section Total

variable {m : Reindexing} (h : m.Total)

include h

theorem Reindexing.Total.exists (r : Ref) : ∃ s, m r = some s :=
  Option.isSome_iff_exists.1 (h r)

theorem Tuple.exists_reindex (t : Tuple) : ∃ u, t.reindex m = some u := by
  induction t with
  | unit => exact ⟨_, rfl⟩
  | ref r => obtain ⟨s, hs⟩ := h.exists r ; exact ⟨_, by simp only [reindex, hs] ; rfl⟩
  | pair a b ha hb =>
    obtain ⟨a', ha⟩ := ha
    obtain ⟨b', hb⟩ := hb
    exact ⟨_, by simp only [reindex, ha, hb] ; rfl⟩

theorem Expr.exists_reindex (e : Expr) : ∃ u, e.reindex m = some u := by
  induction e with
  | var r => exact ⟨_, rfl⟩
  | const x => exact ⟨_, rfl⟩
  | nil => exact ⟨_, rfl⟩
  | letIn p a b ha hb | binary op a b ha hb | pair a b ha hb =>
    obtain ⟨a', ha⟩ := ha
    obtain ⟨b', hb⟩ := hb
    exact ⟨_, by simp only [reindex, ha, hb] ; rfl⟩
  | unary op e he | fst e he | snd e he =>
    obtain ⟨e', he⟩ := he
    exact ⟨_, by simp only [reindex, he] ; rfl⟩
  | cond a b c ha hb hc =>
    obtain ⟨a', ha⟩ := ha
    obtain ⟨b', hb⟩ := hb
    obtain ⟨c', hc⟩ := hc
    exact ⟨_, by simp only [reindex, ha, hb, hc] ; rfl⟩
  | read r e he | param r e he =>
    obtain ⟨s, hs⟩ := h.exists r
    obtain ⟨e', he⟩ := he
    exact ⟨_, by simp only [reindex, hs, he] ; rfl⟩

theorem Fn.exists_reindex (f : Fn) : ∃ u, f.reindex m = some u := by
  induction f with
  | lam p f hf => obtain ⟨f', hf⟩ := hf ; exact ⟨_, by simp only [reindex, hf] ; rfl⟩
  | body e =>
    obtain ⟨e', he⟩ := e.exists_reindex h
    exact ⟨_, by simp only [reindex, he] ; rfl⟩

theorem exists_reindexRefs (rs : List Ref) : ∃ u, reindexRefs m rs = some u := by
  induction rs with
  | nil => exact ⟨_, rfl⟩
  | cons r rs ih =>
    obtain ⟨s, hs⟩ := h.exists r
    obtain ⟨ss, ih⟩ := ih
    exact ⟨_, by simp only [reindexRefs, hs, ih] ; rfl⟩

theorem Operand.exists_reindex (o : Operand) : ∃ u, o.reindex m = some u := by
  cases o with
  | scalar r => obtain ⟨s, hs⟩ := h.exists r ; exact ⟨_, by simp only [reindex, hs] ; rfl⟩
  | function f =>
    obtain ⟨f', hf⟩ := f.exists_reindex h
    exact ⟨_, by simp only [reindex, hf] ; rfl⟩
  | input shape b | output shape b =>
    obtain ⟨ss, hss⟩ := exists_reindexRefs h shape
    obtain ⟨s, hs⟩ := h.exists b
    exact ⟨_, by simp only [reindex, hss, hs] ; rfl⟩

theorem exists_reindexOperands (os : List Operand) : ∃ u, reindexOperands m os = some u := by
  induction os with
  | nil => exact ⟨_, rfl⟩
  | cons o os ih =>
    obtain ⟨o', ho⟩ := o.exists_reindex h
    obtain ⟨os', ih⟩ := ih
    exact ⟨_, by simp only [reindexOperands, ho, ih] ; rfl⟩

theorem Program.exists_reindex (p : Program Op) : ∃ u, p.reindex m = some u := by
  induction p generalizing m with
  | exec op args =>
    obtain ⟨as, has⟩ := exists_reindexOperands h args
    exact ⟨_, by simp only [reindex, has] ; rfl⟩
  | ret t => obtain ⟨u, hu⟩ := t.exists_reindex h ; exact ⟨_, by simp only [reindex, hu] ; rfl⟩
  | compute e => obtain ⟨u, hu⟩ := e.exists_reindex h ; exact ⟨_, by simp only [reindex, hu] ; rfl⟩
  | alloc elem shape =>
    obtain ⟨ss, hss⟩ := exists_reindexRefs h shape
    exact ⟨_, by simp only [reindex, hss] ; rfl⟩
  | letIn p a b ha hb =>
    obtain ⟨a', ha⟩ := ha h
    obtain ⟨b', hb⟩ := hb (h.sink p.size)
    exact ⟨.letIn p a' b', by simp only [reindex, ha, Reindexing.under, hb] ; rfl⟩
  | cond r a b ha hb =>
    obtain ⟨s, hs⟩ := h.exists r
    obtain ⟨a', ha⟩ := ha h
    obtain ⟨b', hb⟩ := hb h
    exact ⟨_, by simp only [reindex, hs, ha, hb] ; rfl⟩

end Total

def Tuple.rename (m : Reindexing) (h : m.Total) (t : Tuple) : Tuple :=
  (t.reindex m).get (Option.isSome_iff_exists.2 (t.exists_reindex h))

theorem Tuple.reindex_eq_rename {m : Reindexing} (h : m.Total) (t : Tuple) :
    t.reindex m = some (t.rename m h) := by
  simp [rename]

def Program.rename (m : Reindexing) (h : m.Total) (p : Program Op) : Program Op :=
  (p.reindex m).get (Option.isSome_iff_exists.2 (p.exists_reindex h))

theorem Program.reindex_eq_rename {m : Reindexing} (h : m.Total) (p : Program Op) :
    p.reindex m = some (p.rename m h) := by
  simp [rename]

def Tuple.weaken (n : Nat) (t : Tuple) : Tuple :=
  t.rename (.weaken n) (Reindexing.total_weaken n)

def Program.weaken (n : Nat) (p : Program Op) : Program Op :=
  p.rename (.weaken n) (Reindexing.total_weaken n)

end ArrayFusion

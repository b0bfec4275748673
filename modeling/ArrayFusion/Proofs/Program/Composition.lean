import ArrayFusion.Reindexing.Terms
set_option autoImplicit false

/-!
Reindexing by two maps one after the other. Sinking both under a binder is sinking what
they make together, so whole terms go through two maps as their references do, and a term
has no image exactly where one of the two maps leaves it without one.
-/

namespace ArrayFusion

variable {Op : Type}

namespace Reindexing

theorem sink_weaken_zero (n : Nat) : (weaken 0).sink n = weaken 0 := by
  funext r
  by_cases hr : r.index < n
  · simp [sink, weaken, hr]
  · simp [sink, weaken, hr, Ref.shifted_lowered (Nat.not_lt.1 hr)]

theorem sink_andThen (f g : Reindexing) (n : Nat) :
    (f.andThen g).sink n = (f.sink n).andThen (g.sink n) := by
  funext r
  by_cases hr : r.index < n
  · simp [sink, andThen, hr]
  · cases hf : f (r.lowered n) with
    | none => simp [sink, andThen, hr, hf]
    | some s =>
      have hs : ¬s.index + n < n := by omega
      simp [sink, andThen, hr, hf, hs]

theorem weaken_andThen_strengthen (n : Nat) :
    (weaken (n + 1)).andThen (strengthen 0) = weaken n := by
  funext r
  simp [andThen, weaken, strengthen, Ref.shifted, Ref.lowered]

/-- The terms of a sort go through maps as references do, where `act` takes a term through
a map. -/
structure Functorial {α : Type} (act : Reindexing → α → Option α) : Prop where
  andThen : ∀ (f g : Reindexing) (t : α), act (f.andThen g) t = (act f t).bind (act g)
  weaken_zero : ∀ t : α, act (weaken 0) t = some t
  /-- Room for `a` slots and then for `b` more is room for `a + b`. -/
  weaken_weaken : ∀ (a b : Nat) (t : α), ∃ u v, act (weaken a) t = some u ∧
    act (weaken b) u = some v ∧ act (weaken (a + b)) t = some v
  /-- The topmost of the new slots can be taken away again. -/
  strengthen_weaken : ∀ (n : Nat) (t : α), ∃ u v, act (weaken (n + 1)) t = some u ∧
    act (strengthen 0) u = some v ∧ act (weaken n) t = some v

theorem functorial_of_andThen {α : Type} {act : Reindexing → α → Option α}
    (hcomp : ∀ (f g : Reindexing) (t : α), act (f.andThen g) t = (act f t).bind (act g))
    (hid : ∀ t : α, act (weaken 0) t = some t)
    (htotal : ∀ (n : Nat) (t : α), ∃ u, act (weaken n) t = some u) : Functorial act := by
  refine ⟨hcomp, hid, fun a b t => ?_, fun n t => ?_⟩
  · obtain ⟨u, hu⟩ := htotal a t
    obtain ⟨v, hv⟩ := htotal b u
    have hboth := hcomp (weaken a) (weaken b) t
    rw [weaken_andThen_weaken, hu, Option.bind_some, hv] at hboth
    exact ⟨u, v, hu, hv, hboth⟩
  · obtain ⟨u, hu⟩ := htotal (n + 1) t
    obtain ⟨v, hv⟩ := htotal n t
    have hboth := hcomp (weaken (n + 1)) (strengthen 0) t
    rw [weaken_andThen_strengthen, hu, hv, Option.bind_some] at hboth
    exact ⟨u, v, hu, hboth.symm, hv⟩

end Reindexing

open Reindexing

section Identity

theorem Tuple.reindex_weaken_zero (t : Tuple) : t.reindex (.weaken 0) = some t := by
  induction t with
  | unit => rfl
  | ref r => rfl
  | pair a b ha hb => simp [reindex, ha, hb]

theorem Expr.reindex_weaken_zero (e : Expr) : e.reindex (.weaken 0) = some e := by
  induction e with
  | var _ | const _ | nil => rfl
  | unary op a ih | fst a ih | snd a ih => simp [reindex, ih]
  | letIn p a b iha ihb | binary op a b iha ihb | pair a b iha ihb => simp [reindex, iha, ihb]
  | cond a b c iha ihb ihc => simp [reindex, iha, ihb, ihc]
  | read r a ih | param r a ih => simp [reindex, ih, weaken]

theorem Fn.reindex_weaken_zero (f : Fn) : f.reindex (.weaken 0) = some f := by
  induction f with
  | lam p f ih => simp [reindex, ih]
  | body e => simp [reindex, e.reindex_weaken_zero]

theorem reindexRefs_weaken_zero (rs : List Ref) : reindexRefs (.weaken 0) rs = some rs := by
  induction rs with
  | nil => rfl
  | cons r rs ih => simp [reindexRefs, ih, weaken]

theorem Operand.reindex_weaken_zero (o : Operand) : o.reindex (.weaken 0) = some o := by
  cases o with
  | scalar r => rfl
  | function f => simp [reindex, f.reindex_weaken_zero]
  | input shape b | output shape b => simp [reindex, reindexRefs_weaken_zero, weaken]

theorem reindexOperands_weaken_zero (os : List Operand) :
    reindexOperands (.weaken 0) os = some os := by
  induction os with
  | nil => rfl
  | cons o os ih => simp [reindexOperands, o.reindex_weaken_zero, ih]

theorem Program.reindex_weaken_zero (t : Program Op) : t.reindex (.weaken 0) = some t := by
  induction t with
  | exec op args => simp [reindex, reindexOperands_weaken_zero]
  | ret t => simp [reindex, t.reindex_weaken_zero]
  | compute e => simp [reindex, e.reindex_weaken_zero]
  | alloc elem shape => simp [reindex, reindexRefs_weaken_zero]
  | letIn p a b iha ihb => simp [reindex, under, sink_weaken_zero, iha, ihb]
  | cond r a b iha ihb => simp [reindex, iha, ihb, Reindexing.weaken]

end Identity

section Composition

variable (f g : Reindexing)

theorem Tuple.reindex_andThen (t : Tuple) :
    t.reindex (f.andThen g) = (t.reindex f).bind (Tuple.reindex g) := by
  induction t with
  | unit => rfl
  | ref r => cases hf : f r <;> simp [reindex, andThen, hf]
  | pair a b iha ihb =>
    cases ha : a.reindex f <;> cases hb : b.reindex f <;> simp [reindex, iha, ihb, ha, hb]

theorem Expr.reindex_andThen (e : Expr) :
    e.reindex (f.andThen g) = (e.reindex f).bind (Expr.reindex g) := by
  induction e with
  | var _ | const _ | nil => rfl
  | unary op a ih | fst a ih | snd a ih => cases ha : a.reindex f <;> simp [reindex, ih, ha]
  | letIn p a b iha ihb | binary op a b iha ihb | pair a b iha ihb =>
    cases ha : a.reindex f <;> cases hb : b.reindex f <;> simp [reindex, iha, ihb, ha, hb]
  | cond a b c iha ihb ihc =>
    cases ha : a.reindex f <;> cases hb : b.reindex f <;> cases hc : c.reindex f <;>
      simp [reindex, iha, ihb, ihc, ha, hb, hc]
  | read r a ih | param r a ih =>
    cases hf : f r <;> cases ha : a.reindex f <;> simp [reindex, andThen, ih, hf, ha]

theorem Fn.reindex_andThen (h : Fn) :
    h.reindex (f.andThen g) = (h.reindex f).bind (Fn.reindex g) := by
  induction h with
  | lam p h ih => cases hf : h.reindex f <;> simp [reindex, ih, hf]
  | body e => cases he : e.reindex f <;> simp [reindex, e.reindex_andThen, he]

theorem reindexRefs_andThen (rs : List Ref) :
    reindexRefs (f.andThen g) rs = (reindexRefs f rs).bind (reindexRefs g) := by
  induction rs with
  | nil => rfl
  | cons r rs ih =>
    cases hf : f r <;> cases hrs : reindexRefs f rs <;> simp [reindexRefs, andThen, ih, hf, hrs]

theorem Operand.reindex_andThen (o : Operand) :
    o.reindex (f.andThen g) = (o.reindex f).bind (Operand.reindex g) := by
  cases o with
  | scalar r => cases hf : f r <;> simp [reindex, andThen, hf]
  | function h => cases hf : h.reindex f <;> simp [reindex, h.reindex_andThen, hf]
  | input shape b | output shape b =>
    cases hs : reindexRefs f shape <;> cases hf : f b <;>
      simp [reindex, reindexRefs_andThen, andThen, hs, hf]

theorem reindexOperands_andThen (os : List Operand) :
    reindexOperands (f.andThen g) os = (reindexOperands f os).bind (reindexOperands g) := by
  induction os with
  | nil => rfl
  | cons o os ih =>
    cases ho : o.reindex f <;> cases hos : reindexOperands f os <;>
      simp [reindexOperands, o.reindex_andThen, ih, ho, hos]

theorem Program.reindex_andThen (t : Program Op) :
    t.reindex (f.andThen g) = (t.reindex f).bind (Program.reindex g) := by
  induction t generalizing f g with
  | exec op args =>
    cases ha : reindexOperands f args <;> simp [reindex, reindexOperands_andThen, ha]
  | ret t => cases ht : t.reindex f <;> simp [reindex, t.reindex_andThen, ht]
  | compute e => cases he : e.reindex f <;> simp [reindex, e.reindex_andThen, he]
  | alloc elem shape =>
    cases hs : reindexRefs f shape <;> simp [reindex, reindexRefs_andThen, hs]
  | letIn p a b iha ihb =>
    cases ha : a.reindex f <;> cases hb : b.reindex (f.sink p.size) <;>
      simp [reindex, under, sink_andThen, iha, ihb, ha, hb]
  | cond r a b iha ihb =>
    cases hf : f r <;> cases ha : a.reindex f <;> cases hb : b.reindex f <;>
      simp [reindex, andThen, iha, ihb, hf, ha, hb]

end Composition

/-- Every sort of terms goes through maps as references do. -/
theorem reindex_functorial :
    Functorial (@Program.reindex Op) ∧ Functorial Expr.reindex ∧ Functorial Fn.reindex ∧
      Functorial Operand.reindex ∧ Functorial reindexOperands ∧ Functorial Tuple.reindex := by
  have total := Reindexing.total_weaken
  refine ⟨?_, ?_, ?_, ?_, ?_, ?_⟩
  · exact functorial_of_andThen Program.reindex_andThen Program.reindex_weaken_zero
      fun n t => t.exists_reindex (total n)
  · exact functorial_of_andThen Expr.reindex_andThen Expr.reindex_weaken_zero
      fun n e => e.exists_reindex (total n)
  · exact functorial_of_andThen Fn.reindex_andThen Fn.reindex_weaken_zero
      fun n f => f.exists_reindex (total n)
  · exact functorial_of_andThen Operand.reindex_andThen Operand.reindex_weaken_zero
      fun n o => o.exists_reindex (total n)
  · exact functorial_of_andThen reindexOperands_andThen reindexOperands_weaken_zero
      fun n os => exists_reindexOperands (total n) os
  · exact functorial_of_andThen Tuple.reindex_andThen Tuple.reindex_weaken_zero
      fun n t => t.exists_reindex (total n)

end ArrayFusion

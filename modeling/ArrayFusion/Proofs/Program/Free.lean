import ArrayFusion.Proofs.Program.Image
set_option autoImplicit false

namespace ArrayFusion

variable {Op : Type} {P Q : Ref → Prop} {m : Reindexing}

def Expr.AllFree (P : Ref → Prop) : Expr → Prop
  | .var _ | .const _ | .nil => True
  | .unary _ e | .fst e | .snd e => e.AllFree P
  | .letIn _ a b | .binary _ a b | .pair a b => a.AllFree P ∧ b.AllFree P
  | .cond a b c => a.AllFree P ∧ b.AllFree P ∧ c.AllFree P
  | .read r e | .param r e => P r ∧ e.AllFree P

def Fn.AllFree (P : Ref → Prop) : Fn → Prop
  | .lam _ f => f.AllFree P
  | .body e => e.AllFree P

def Tuple.AllFree (P : Ref → Prop) : Tuple → Prop
  | .unit => True
  | .ref r => P r
  | .pair a b => a.AllFree P ∧ b.AllFree P

def Operand.AllFree (P : Ref → Prop) : Operand → Prop
  | .scalar r => P r
  | .function f => f.AllFree P
  | .input shape b | .output shape b => (∀ r ∈ shape, P r) ∧ P b

/-- The property holds of every reference to a slot that no binder of the program
makes, seen from outside of the program. -/
def Program.AllFree : (P : Ref → Prop) → Program Op → Prop
  | P, .exec _ args => ∀ o ∈ args, o.AllFree P
  | P, .ret t => t.AllFree P
  | P, .compute e => e.AllFree P
  | P, .alloc _ shape => ∀ r ∈ shape, P r
  | P, .letIn p bound body =>
    bound.AllFree P ∧ body.AllFree fun r => p.size ≤ r.index → P (r.lowered p.size)
  | P, .cond test onTrue onFalse => P test ∧ onTrue.AllFree P ∧ onFalse.AllFree P

section Everywhere

variable (h : ∀ r, P r)

include h

theorem Expr.AllFree.of_forall (e : Expr) : e.AllFree P := by
  induction e with
  | var _ | const _ | nil => trivial
  | unary op e ih | fst e ih | snd e ih => exact ih
  | letIn p a b ha hb | binary op a b ha hb | pair a b ha hb => exact ⟨ha, hb⟩
  | cond a b c ha hb hc => exact ⟨ha, hb, hc⟩
  | read r e ih | param r e ih => exact ⟨h r, ih⟩

theorem Fn.AllFree.of_forall (f : Fn) : f.AllFree P := by
  induction f with
  | lam p f ih => exact ih
  | body e => exact Expr.AllFree.of_forall h e

theorem Tuple.AllFree.of_forall (t : Tuple) : t.AllFree P := by
  induction t with
  | unit => trivial
  | ref r => exact h r
  | pair a b ha hb => exact ⟨ha, hb⟩

theorem Operand.AllFree.of_forall (o : Operand) : o.AllFree P := by
  cases o with
  | scalar r => exact h r
  | function f => exact Fn.AllFree.of_forall h f
  | input shape b | output shape b => exact ⟨fun r _ => h r, h b⟩

theorem Program.AllFree.of_forall (t : Program Op) : t.AllFree P := by
  induction t generalizing P with
  | exec op args => exact fun o _ => Operand.AllFree.of_forall h o
  | ret t => exact Tuple.AllFree.of_forall h t
  | compute e => exact Expr.AllFree.of_forall h e
  | alloc elem shape => exact fun r _ => h r
  | letIn p a b ha hb => exact ⟨ha h, hb fun r _ => h _⟩
  | cond r a b ha hb => exact ⟨h r, ha h, hb h⟩

end Everywhere

section Mono

variable (h : ∀ r, P r → Q r)

include h

theorem Expr.AllFree.mono {e : Expr} (he : e.AllFree P) : e.AllFree Q := by
  induction e with
  | var _ | const _ | nil => trivial
  | unary op e ih | fst e ih | snd e ih => exact ih he
  | letIn p a b ha hb | binary op a b ha hb | pair a b ha hb => exact ⟨ha he.1, hb he.2⟩
  | cond a b c ha hb hc => exact ⟨ha he.1, hb he.2.1, hc he.2.2⟩
  | read r e ih | param r e ih => exact ⟨h r he.1, ih he.2⟩

theorem Fn.AllFree.mono {f : Fn} (hf : f.AllFree P) : f.AllFree Q := by
  induction f with
  | lam p f ih => exact ih hf
  | body e => exact Expr.AllFree.mono h hf

theorem Tuple.AllFree.mono {t : Tuple} (ht : t.AllFree P) : t.AllFree Q := by
  induction t with
  | unit => trivial
  | ref r => exact h r ht
  | pair a b ha hb => exact ⟨ha ht.1, hb ht.2⟩

theorem Operand.AllFree.mono {o : Operand} (ho : o.AllFree P) : o.AllFree Q := by
  cases o with
  | scalar r => exact h r ho
  | function f => exact Fn.AllFree.mono h ho
  | input shape b | output shape b => exact ⟨fun r hr => h r (ho.1 r hr), h b ho.2⟩

theorem Program.AllFree.mono {t : Program Op} (ht : t.AllFree P) : t.AllFree Q := by
  induction t generalizing P Q with
  | exec op args => exact fun o ho => (ht o ho).mono h
  | ret t => exact Tuple.AllFree.mono h ht
  | compute e => exact Expr.AllFree.mono h ht
  | alloc elem shape => exact fun r hr => h r (ht r hr)
  | letIn p a b ha hb => exact ⟨ha h ht.1, hb (fun r hr hle => h _ (hr hle)) ht.2⟩
  | cond r a b ha hb => exact ⟨h r ht.1, ha h ht.2.1, hb h ht.2.2⟩

end Mono

section Image

theorem Expr.AllFree.image {e e' : Expr} (he : e.Image m e')
    (h : e.AllFree fun r => ∀ r', m r = some r' → P r') : e'.AllFree P := by
  induction he with
  | var | const | nil => trivial
  | unary _ ih | fst _ ih | snd _ ih => exact ih h
  | letIn _ _ iha ihb | binary _ _ iha ihb | pair _ _ iha ihb => exact ⟨iha h.1, ihb h.2⟩
  | cond _ _ _ iha ihb ihc => exact ⟨iha h.1, ihb h.2.1, ihc h.2.2⟩
  | read hr _ ih | param hr _ ih => exact ⟨h.1 _ hr, ih h.2⟩

theorem Fn.AllFree.image {f f' : Fn} (hf : f.Image m f')
    (h : f.AllFree fun r => ∀ r', m r = some r' → P r') : f'.AllFree P := by
  induction hf with
  | lam _ ih => exact ih h
  | body he => exact Expr.AllFree.image he h

theorem Tuple.AllFree.image {t t' : Tuple} (ht : t.Image m t')
    (h : t.AllFree fun r => ∀ r', m r = some r' → P r') : t'.AllFree P := by
  induction ht with
  | unit => trivial
  | ref hr => exact h _ hr
  | pair _ _ iha ihb => exact ⟨iha h.1, ihb h.2⟩

theorem forall_mem_imageRefs {rs rs' : List Ref} (hrs : ImageRefs m rs rs')
    (h : ∀ r ∈ rs, ∀ r', m r = some r' → P r') : ∀ r' ∈ rs', P r' := by
  induction hrs with
  | nil => exact fun _ hr => (List.not_mem_nil hr).elim
  | cons hr _ ih =>
    obtain ⟨h, hs⟩ := List.forall_mem_cons.1 h
    exact List.forall_mem_cons.2 ⟨h _ hr, ih hs⟩

theorem Operand.AllFree.image {o o' : Operand} (ho : o.Image m o')
    (h : o.AllFree fun r => ∀ r', m r = some r' → P r') : o'.AllFree P := by
  cases ho with
  | scalar hr => exact h _ hr
  | function hf => exact Fn.AllFree.image hf h
  | input hs hb | output hs hb => exact ⟨forall_mem_imageRefs hs h.1, h.2 _ hb⟩

theorem forall_mem_imageOperands {os os' : List Operand}
    (hos : List.Forall₂ (Operand.Image m) os os')
    (h : ∀ o ∈ os, o.AllFree fun r => ∀ r', m r = some r' → P r') : ∀ o ∈ os', o.AllFree P := by
  induction hos with
  | nil => exact fun _ ho => (List.not_mem_nil ho).elim
  | cons ho _ ih =>
    obtain ⟨h, hs⟩ := List.forall_mem_cons.1 h
    exact List.forall_mem_cons.2 ⟨Operand.AllFree.image ho h, ih hs⟩

theorem Reindexing.sink_eq_some {n : Nat} {r r' : Ref} (h : m.sink n r = some r')
    (hn : n ≤ r.index) : ∃ s, m (r.lowered n) = some s ∧ r' = s.shifted n := by
  rw [sink, if_neg (Nat.not_lt.2 hn)] at h
  obtain ⟨s, hs, rfl⟩ := Option.map_eq_some_iff.1 h
  exact ⟨s, hs, rfl⟩

theorem Reindexing.sink_of_lt {n : Nat} {r : Ref} (h : r.index < n) : m.sink n r = some r :=
  if_pos h

theorem Program.AllFree.reindex {t t' : Program Op} (ht : t.reindex m = some t')
    (h : t.AllFree fun r => ∀ r', m r = some r' → P r') : t'.AllFree P := by
  replace ht := reindex_eq_some_iff.1 ht
  induction ht generalizing P with
  | exec ha => exact forall_mem_imageOperands ha h
  | ret ht => exact Tuple.AllFree.image ht h
  | compute he => exact Expr.AllFree.image he h
  | alloc hs => exact forall_mem_imageRefs hs h
  | @letIn m p a a' b b' _ _ iha ihb =>
    refine ⟨iha h.1, ihb (h.2.mono fun r hr r' hr' hle => ?_)⟩
    by_cases hn : p.size ≤ r.index
    · obtain ⟨s, hs, rfl⟩ := Reindexing.sink_eq_some hr' hn
      rw [Ref.lowered_shifted]
      exact hr hn s hs
    · cases (Reindexing.sink_of_lt (Nat.not_le.1 hn)).symm.trans hr'
      exact (hn hle).elim
  | cond hr _ _ iha ihb => exact ⟨h.1 _ hr, iha h.2.1, ihb h.2.2⟩

end Image

end ArrayFusion

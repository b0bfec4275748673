import ArrayFusion.Reindexing.Terms
set_option autoImplicit false

/-!
The references by which a term reaches outside of itself, in the order in which reindexing
comes to them. A term has an image if all of them have one, and these are then the
references of the image.
-/

namespace ArrayFusion

variable {Op : Type} {m : Reindexing}

def Expr.refs : Expr → List Ref
  | .var _ | .const _ | .nil => []
  | .unary _ e | .fst e | .snd e => e.refs
  | .letIn _ a b | .binary _ a b | .pair a b => a.refs ++ b.refs
  | .cond a b c => a.refs ++ (b.refs ++ c.refs)
  | .read r e | .param r e => r :: e.refs

def Fn.refs : Fn → List Ref
  | .lam _ f => f.refs
  | .body e => e.refs

def Operand.refs : Operand → List Ref
  | .scalar r => [r]
  | .function f => f.refs
  | .input shape b | .output shape b => shape ++ [b]

def outerRefs (n : Nat) (rs : List Ref) : List Ref :=
  (rs.filter (n ≤ ·.index)).map (·.lowered n)

/-- References to the slots of the program's own binders are left out. -/
def Program.refs : Program Op → List Ref
  | .exec _ args => args.flatMap Operand.refs
  | .ret t => t.refs
  | .compute e => e.refs
  | .alloc _ shape => shape
  | .letIn p bound body => bound.refs ++ outerRefs p.size body.refs
  | .cond test onTrue onFalse => test :: (onTrue.refs ++ onFalse.refs)

theorem mapM_eq_some_iff {α β : Type} {f : α → Option β} {xs : List α} {ys : List β} :
    xs.mapM f = some ys ↔ xs.map f = ys.map some := by
  induction xs generalizing ys with
  | nil => cases ys <;> simp
  | cons x xs ih =>
    cases ys with
    | nil => simp [Option.bind_eq_some_iff]
    | cons y ys => simp [Option.bind_eq_some_iff, ih]

theorem mapM_eq_none_iff {α β : Type} {f : α → Option β} {xs : List α} :
    xs.mapM f = none ↔ ∃ x ∈ xs, f x = none := by
  induction xs with
  | nil => simp
  | cons x xs ih =>
    cases hx : f x with
    | none => simp [hx]
    | some y => cases hxs : xs.mapM f <;> simpa [hx, hxs] using ih

theorem reindexRefs_eq_mapM (m : Reindexing) (rs : List Ref) : reindexRefs m rs = rs.mapM m := by
  induction rs with
  | nil => rfl
  | cons r rs ih => simp [reindexRefs, ih]

theorem outerRefs_mapM_sink (m : Reindexing) (n : Nat) (rs : List Ref) :
    (rs.mapM (m.sink n)).map (outerRefs n) = (outerRefs n rs).mapM m := by
  induction rs with
  | nil => rfl
  | cons r rs ih =>
    by_cases hr : r.index < n
    · have hs : m.sink n r = some r := if_pos hr
      have ho : outerRefs n (r :: rs) = outerRefs n rs := by simp [outerRefs, hr]
      rw [ho, ← ih]
      cases h : rs.mapM (m.sink n) <;> simp [h, hs, outerRefs, hr]
    · have ho : outerRefs n (r :: rs) = r.lowered n :: outerRefs n rs := by
        simp [outerRefs, Nat.not_lt.1 hr]
      have hs : m.sink n r = (m (r.lowered n)).map (·.shifted n) := if_neg hr
      rw [ho, List.mapM_cons, List.mapM_cons, ← ih, hs]
      cases m (r.lowered n) <;> cases rs.mapM (m.sink n) <;> simp [outerRefs]

section Image

theorem Tuple.refs_reindex (t : Tuple) : (t.reindex m).map Tuple.refs = t.refs.mapM m := by
  induction t with
  | unit => rfl
  | ref r => cases hr : m r <;> simp [reindex, refs, hr]
  | pair a b iha ihb =>
    rw [refs, List.mapM_append, ← iha, ← ihb]
    cases ha : a.reindex m <;> cases hb : b.reindex m <;> simp [reindex, refs, ha, hb]

theorem Expr.refs_reindex (e : Expr) : (e.reindex m).map Expr.refs = e.refs.mapM m := by
  induction e with
  | var _ | const _ | nil => rfl
  | unary op a ih | fst a ih | snd a ih =>
    rw [refs, ← ih]
    cases ha : a.reindex m <;> simp [reindex, refs, ha]
  | letIn p a b iha ihb | binary op a b iha ihb | pair a b iha ihb =>
    rw [refs, List.mapM_append, ← iha, ← ihb]
    cases ha : a.reindex m <;> cases hb : b.reindex m <;> simp [reindex, refs, ha, hb]
  | cond a b c iha ihb ihc =>
    rw [refs, List.mapM_append, List.mapM_append, ← iha, ← ihb, ← ihc]
    cases ha : a.reindex m <;> cases hb : b.reindex m <;> cases hc : c.reindex m <;>
      simp [reindex, refs, ha, hb, hc]
  | read r a ih | param r a ih =>
    rw [refs, List.mapM_cons, ← ih]
    cases hr : m r <;> cases ha : a.reindex m <;> simp [reindex, refs, hr, ha]

theorem Fn.refs_reindex (f : Fn) : (f.reindex m).map Fn.refs = f.refs.mapM m := by
  induction f with
  | lam p f ih =>
    rw [refs, ← ih]
    cases hf : f.reindex m <;> simp [reindex, refs, hf]
  | body e =>
    rw [refs, ← e.refs_reindex]
    cases he : e.reindex m <;> simp [reindex, refs, he]

theorem Operand.refs_reindex (o : Operand) : (o.reindex m).map Operand.refs = o.refs.mapM m := by
  cases o with
  | scalar r => cases hr : m r <;> simp [reindex, refs, hr]
  | function f =>
    rw [refs, ← f.refs_reindex]
    cases hf : f.reindex m <;> simp [reindex, refs, hf]
  | input shape b | output shape b =>
    rw [refs, List.mapM_append, ← reindexRefs_eq_mapM]
    cases hs : reindexRefs m shape <;> cases hb : m b <;> simp [reindex, refs, hs, hb]

theorem refs_reindexOperands (os : List Operand) :
    (reindexOperands m os).map (·.flatMap Operand.refs) = (os.flatMap Operand.refs).mapM m := by
  induction os with
  | nil => rfl
  | cons o os ih =>
    rw [List.flatMap_cons, List.mapM_append, ← ih, ← o.refs_reindex]
    cases ho : o.reindex m <;> cases hos : reindexOperands m os <;>
      simp [reindexOperands, ho, hos]

theorem Program.refs_reindex (t : Program Op) : (t.reindex m).map Program.refs = t.refs.mapM m := by
  induction t generalizing m with
  | exec op args =>
    rw [refs, ← refs_reindexOperands]
    cases ha : reindexOperands m args <;> simp [reindex, refs, ha]
  | ret t =>
    rw [refs, ← t.refs_reindex]
    cases ht : t.reindex m <;> simp [reindex, refs, ht]
  | compute e =>
    rw [refs, ← e.refs_reindex]
    cases he : e.reindex m <;> simp [reindex, refs, he]
  | alloc elem shape =>
    rw [refs, ← reindexRefs_eq_mapM]
    cases hs : reindexRefs m shape <;> simp [reindex, refs, hs]
  | letIn p a b iha ihb =>
    rw [refs, List.mapM_append, ← outerRefs_mapM_sink, ← iha, ← ihb]
    cases ha : a.reindex m <;> cases hb : b.reindex (m.sink p.size) <;>
      simp [reindex, Reindexing.under, refs, ha, hb]
  | cond r a b iha ihb =>
    rw [refs, List.mapM_cons, List.mapM_append, ← iha, ← ihb]
    cases hr : m r <;> cases ha : a.reindex m <;> cases hb : b.reindex m <;>
      simp [reindex, refs, hr, ha, hb]

end Image

namespace Program

variable {t t' : Program Op}

theorem reindex_eq_none_iff : t.reindex m = none ↔ ∃ r ∈ t.refs, m r = none := by
  rw [← mapM_eq_none_iff, ← t.refs_reindex, Option.map_eq_none_iff]

theorem map_refs (h : t.reindex m = some t') : t.refs.map m = t'.refs.map some := by
  rw [← mapM_eq_some_iff, ← t.refs_reindex, h, Option.map_some]

theorem mem_refs_reindex (h : t.reindex m = some t') {s : Ref} :
    s ∈ t'.refs ↔ ∃ r ∈ t.refs, m r = some s := by
  have hs : some s ∈ t.refs.map m ↔ some s ∈ t'.refs.map some := by rw [map_refs h]
  simpa using hs.symm

end Program

end ArrayFusion

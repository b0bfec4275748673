import ArrayFusion.Program.Issue
import ArrayFusion.Proofs.Outcome
import ArrayFusion.Proofs.Program.Free
set_option autoImplicit false

namespace ArrayFusion

namespace Context

def Has (Γ : Context) (r : Ref) : Prop := Γ[r.index]? = some r.ty

variable {Γ ts : Context} {r : Ref}

theorem has_iff_lookup : Γ.Has r ↔ ∃ t, Γ.lookup r = .ok t := by
  simp [Has, lookup_eq_ok_iff]

theorem Has.index_lt (h : Γ.Has r) : r.index < Γ.length := (List.getElem?_eq_some_iff.1 h).1

theorem has_append_of_lt (h : r.index < ts.length) : Has (ts ++ Γ) r ↔ Has ts r := by
  rw [Has, Has, List.getElem?_append_left h]

theorem has_append_of_le (h : ts.length ≤ r.index) :
    Has (ts ++ Γ) r ↔ Γ.Has (r.lowered ts.length) := by
  rw [Has, Has, List.getElem?_append_right h, Ref.index_lowered, Ref.ty_lowered]

theorem has_append_shifted : Has (ts ++ Γ) (r.shifted ts.length) ↔ Γ.Has r := by
  rw [has_append_of_le (by simp), Ref.lowered_shifted]

@[simp] theorem indexIssues_eq_nil_iff : Γ.indexIssues r = [] ↔ Γ.Has r := by
  unfold indexIssues Has
  cases h : Γ.lookup r with
  | ok t =>
    obtain ⟨hget, rfl⟩ := lookup_eq_ok_iff.1 h
    simp [hget]
  | error e =>
    have hnot : ¬Γ[r.index]? = some r.ty := fun hget => by
      simp [lookup_eq_ok_iff.2 ⟨hget, rfl⟩] at h
    simp [hnot]

@[simp] theorem scalarIssues_eq_nil_iff : Γ.scalarIssues r = [] ↔ Γ.Has r := by
  rw [← indexIssues_eq_nil_iff]
  unfold scalarIssues indexIssues
  cases Γ.lookup r <;> simp

@[simp] theorem extentIssues_eq_nil_iff : Γ.extentIssues r = [] ↔ Γ.Has r ∧ r.ty = .size := by
  simp [extentIssues]

end Context

@[simp] theorem Pattern.bindIssues_eq_nil_iff {p : Pattern} {t : Ty} :
    p.bindIssues t = [] ↔ p.ty = t := by
  simp [bindIssues]

@[simp] theorem conditionIssues_eq_nil_iff {t : Ty} : conditionIssues t = [] ↔ t = .bool := by
  simp [conditionIssues]

@[simp] theorem pairIssues_eq_nil_iff {t : Ty} : pairIssues t = [] ↔ t.asPair.isSome := by
  unfold pairIssues
  split <;> simp_all

variable {Γ Δ : Context}

theorem Tuple.issues_eq_nil_iff {t : Tuple} :
    t.refs.flatMap Γ.indexIssues = [] ↔ t.AllFree Γ.Has := by
  induction t with
  | unit => simp [refs, AllFree]
  | ref r => simp [refs, AllFree]
  | pair a b ha hb => simp [refs, AllFree, ha, hb, List.flatMap_append]

theorem bufferIssues_eq_nil_iff {shape : List Ref} {b : Ref} :
    bufferIssues Γ shape b = [] ↔
      Γ.Has b ∧ (∃ elem, b.ty = .array shape.length elem) ∧
        ∀ r ∈ shape, Γ.Has r ∧ r.ty = .size := by
  have hrank : (∃ elem, b.ty = .array shape.length elem) ↔
      ∃ elem, b.ty.asArray = some (shape.length, elem) := by
    refine exists_congr fun elem => ⟨fun h => ?_, Ty.eq_array_of_asArray⟩
    rw [h, Ty.asArray_array]
  rw [hrank]
  cases h : b.ty.asArray with
  | none => simp [bufferIssues, h]
  | some t =>
    obtain ⟨rank, elem⟩ := t
    simp [bufferIssues, h]

namespace Expr

attribute [local simp] issues

theorem typedIssues_eq_nil_iff {e : Expr} {f : Ty → List Issue} :
    e.typedIssues f = [] ↔ ∀ t, e.ty? = .ok t → f t = [] := by
  unfold typedIssues
  cases e.ty? <;> simp

theorem ty_of_ty? {e : Expr} {t : Ty} (h : e.ty? = .ok t) : e.ty = t := by
  rw [ty, h]

theorem ty?_eq_of_issues {e : Expr} (h : e.issues Γ Δ = []) : e.ty? = .ok e.ty := by
  have exists_ty : ∃ t, e.ty? = .ok t := by
    induction e generalizing Δ with
    | letIn p a b _ ih =>
      simp only [issues, List.append_eq_nil_iff] at h
      exact ih h.2
    | var r | const x | nil | param r e => exact ⟨_, rfl⟩
    | unary op e ih =>
      cases op with
      | neg => exact ih h
      | not => exact ⟨_, rfl⟩
    | binary op a b ih _ =>
      simp only [issues, List.append_eq_nil_iff] at h
      unfold ty?
      split
      · exact ⟨_, rfl⟩
      · exact ih h.1
    | pair a b iha ihb =>
      simp only [issues, List.append_eq_nil_iff] at h
      obtain ⟨t, ht⟩ := iha h.1
      obtain ⟨u, hu⟩ := ihb h.2
      exact ⟨_, bind_eq_ok.2 ⟨t, ht, bind_eq_ok.2 ⟨u, hu, rfl⟩⟩⟩
    | fst e ih | snd e ih =>
      simp only [issues, List.append_eq_nil_iff, typedIssues_eq_nil_iff] at h
      obtain ⟨t, ht⟩ := ih h.1
      obtain ⟨⟨a, b⟩, hp⟩ := Option.isSome_iff_exists.1 (pairIssues_eq_nil_iff.1 (h.2 t ht))
      exact ⟨_, bind_eq_ok.2 ⟨t, ht, by rw [hp]⟩⟩
    | cond a b c _ ih _ =>
      simp only [issues, List.append_eq_nil_iff] at h
      exact ih h.1.2
    | read r e =>
      simp only [issues, List.append_eq_nil_iff] at h
      cases ha : r.ty.asArray with
      | none => simp [ha] at h
      | some t => exact ⟨t.2, by rw [ty?, ha]⟩
  obtain ⟨t, ht⟩ := exists_ty
  rw [ty_of_ty? ht, ht]

theorem typedIssues_iff_of_issues {e : Expr} (h : e.issues Γ Δ = []) {f : Ty → List Issue} :
    e.typedIssues f = [] ↔ f e.ty = [] := by
  simp [typedIssues_eq_nil_iff, ty?_eq_of_issues h]

variable {a b c e : Expr} {r : Ref}

theorem issues_letIn_eq_nil_iff {p : Pattern} :
    (letIn p a b).issues Γ Δ = [] ↔
      a.issues Γ Δ = [] ∧ p.ty = a.ty ∧ b.issues Γ (Δ.enter p) = [] := by
  simp only [issues, List.append_eq_nil_iff, and_assoc]
  refine and_congr_right fun ha => ?_
  rw [typedIssues_iff_of_issues ha, Pattern.bindIssues_eq_nil_iff]

theorem issues_binary_eq_nil_iff {op : BinaryOp} :
    (binary op a b).issues Γ Δ = [] ↔ a.issues Γ Δ = [] ∧ b.issues Γ Δ = [] := by
  simp

theorem issues_pair_eq_nil_iff :
    (pair a b).issues Γ Δ = [] ↔ a.issues Γ Δ = [] ∧ b.issues Γ Δ = [] := by
  simp

theorem issues_fst_eq_nil_iff :
    (fst e).issues Γ Δ = [] ↔ e.issues Γ Δ = [] ∧ e.ty.asPair.isSome := by
  simp only [issues, List.append_eq_nil_iff]
  refine and_congr_right fun he => ?_
  rw [typedIssues_iff_of_issues he, pairIssues_eq_nil_iff]

theorem issues_snd_eq_nil_iff :
    (snd e).issues Γ Δ = [] ↔ e.issues Γ Δ = [] ∧ e.ty.asPair.isSome := issues_fst_eq_nil_iff

theorem issues_cond_eq_nil_iff :
    (cond a b c).issues Γ Δ = [] ↔
      a.issues Γ Δ = [] ∧ a.ty = .bool ∧ b.issues Γ Δ = [] ∧ c.issues Γ Δ = [] := by
  simp only [issues, List.append_eq_nil_iff, and_assoc]
  refine and_congr_right fun ha => ?_
  rw [typedIssues_iff_of_issues ha, conditionIssues_eq_nil_iff]

theorem issues_read_eq_nil_iff :
    (read r e).issues Γ Δ = [] ↔ Γ.Has r ∧ r.ty.asArray.isSome ∧ e.issues Γ Δ = [] := by
  cases h : r.ty.asArray <;> simp [h]

theorem issues_param_eq_nil_iff :
    (param r e).issues Γ Δ = [] ↔ Γ.Has r ∧ e.issues Γ Δ = [] := by
  simp

end Expr

namespace Program

attribute [local simp] issues

variable {Op : Type} [Operation Op]

theorem issues_letIn_eq_nil_iff {p : Pattern} {a b : Program Op} :
    (Program.letIn p a b).issues Γ = [] ↔
      a.issues Γ = [] ∧ p.ty = a.ty ∧ b.issues (Γ.enter p) = [] := by
  simp

theorem issues_ret_eq_nil_iff {t : Tuple} :
    (Program.ret t : Program Op).issues Γ = [] ↔ t.AllFree Γ.Has := Tuple.issues_eq_nil_iff

theorem issues_cond_eq_nil_iff {test : Ref} {a b : Program Op} :
    (Program.cond test a b).issues Γ = [] ↔
      Γ.Has test ∧ test.ty = .bool ∧ a.issues Γ = [] ∧ b.issues Γ = [] := by
  simp

theorem issues_exec_eq_nil_iff {op : Op} {args : List Operand} :
    (Program.exec op args).issues Γ = [] ↔
      Operation.signature op = signatureOf args ∧ ∀ o ∈ args, o.issues Γ = [] := by
  simp [callIssues]

theorem issues_alloc_eq_nil_iff {elem : Ty} {shape : List Ref} :
    (Program.alloc elem shape : Program Op).issues Γ = [] ↔
      ∀ r ∈ shape, Γ.Has r ∧ r.ty = .size := by
  simp

end Program

end ArrayFusion

import ArrayFusion.Proofs.Program.Issues
import ArrayFusion.Proofs.Program.Substitution
set_option autoImplicit false

namespace ArrayFusion

variable {Γ Δ Ψ : Context} {m : Reindexing}

/-- What the first environment has is found in the second one with the same type. -/
def Reindexing.Respects (m : Reindexing) (Γ Δ : Context) : Prop :=
  ∀ r r', Γ.Has r → m r = some r' → r'.ty = r.ty ∧ Δ.Has r'

namespace Reindexing.Respects

theorem sink {n : Nat} {ts : Context} (hn : ts.length = n) (h : m.Respects Γ Δ) :
    (m.sink n).Respects (ts ++ Γ) (ts ++ Δ) := by
  subst hn
  intro r r' hr hm
  by_cases hlt : r.index < ts.length
  · cases (sink_of_lt hlt).symm.trans hm
    exact ⟨rfl, (Context.has_append_of_lt hlt).2 ((Context.has_append_of_lt hlt).1 hr)⟩
  · have hle := Nat.not_lt.1 hlt
    obtain ⟨s, hs, rfl⟩ := sink_eq_some hm hle
    have hΓ := (Context.has_append_of_le hle).1 hr
    obtain ⟨hty, hΔ⟩ := h _ s hΓ hs
    exact ⟨hty, Context.has_append_shifted.2 hΔ⟩

theorem under (h : m.Respects Γ Δ) (p : Pattern) :
    (m.under p).Respects (Γ.enter p) (Δ.enter p) := h.sink p.length_slotTys

end Reindexing.Respects

theorem Reindexing.respects_weaken {ts : Context} {n : Nat} (hn : ts.length = n) :
    (weaken n).Respects Γ (ts ++ Γ) := by
  subst hn
  rintro r _ hr ⟨⟩
  exact ⟨rfl, Context.has_append_shifted.2 hr⟩

theorem Reindexing.respects_strengthen (k : Nat) : (strengthen k).Respects Γ (Γ.eraseIdx k) := by
  intro r r' hr hs
  unfold strengthen at hs
  split at hs
  · rename_i hlt
    cases hs
    exact ⟨rfl, (List.getElem?_eraseIdx_of_lt hlt).trans hr⟩
  · rename_i hlt
    split at hs
    · cases hs
    · rename_i hne
      cases hs
      have hle : k ≤ (r.lowered 1).index := by simp; omega
      have hback := Ref.shifted_lowered (n := 1) (r := r) (by omega)
      refine ⟨rfl, (List.getElem?_eraseIdx_of_ge hle).trans ?_⟩
      rw [← Ref.index_shifted, hback]
      exact hr

theorem Reindexing.respects_substitute {refs : List Ref} (hrefs : ∀ r ∈ refs, Γ.Has r) :
    (substitute refs).Respects (refs.map Ref.ty ++ Γ) Γ := by
  have hlen : (refs.map Ref.ty).length = refs.length := List.length_map ..
  intro r r' hr hs
  unfold substitute at hs
  cases hget : refs[r.index]? with
  | some s =>
    rw [hget] at hs
    cases hs
    have hlt : r.index < refs.length := (List.getElem?_eq_some_iff.1 hget).1
    have hslot := (Context.has_append_of_lt (hlen.symm ▸ hlt)).1 hr
    rw [Context.Has, List.getElem?_map, hget] at hslot
    exact ⟨Option.some.inj hslot, hrefs r' (List.mem_of_getElem? hget)⟩
  | none =>
    rw [hget] at hs
    cases hs
    have hle : refs.length ≤ r.index := List.getElem?_eq_none_iff.1 hget
    exact ⟨rfl, hlen ▸ (Context.has_append_of_le (hlen.symm ▸ hle)).1 hr⟩

section Image

variable (hm : m.Respects Γ Δ)

include hm

theorem Tuple.ty_image {t t' : Tuple} (ht : t.Image m t') (h : t.AllFree Γ.Has) :
    t'.ty = t.ty := by
  induction ht with
  | unit => rfl
  | ref hr => exact (hm _ _ h hr).1
  | pair _ _ iha ihb => simp only [ty, iha h.1, ihb h.2]

theorem Tuple.has_image {t t' : Tuple} (ht : t.Image m t') (h : t.AllFree Γ.Has) :
    t'.AllFree Δ.Has :=
  AllFree.image ht (h.mono fun r hr r' hr' => (hm r r' hr hr').2)

theorem extents_image {rs rs' : List Ref} (hrs : ImageRefs m rs rs')
    (h : ∀ r ∈ rs, Γ.Has r ∧ r.ty = .size) : ∀ r ∈ rs', Δ.Has r ∧ r.ty = .size := by
  refine forall_mem_imageRefs hrs fun r hr r' hr' => ?_
  obtain ⟨hty, hΔ⟩ := hm r r' (h r hr).1 hr'
  exact ⟨hΔ, hty.trans (h r hr).2⟩

end Image

namespace Expr

theorem allFree_of_issues {e : Expr} (h : e.issues Γ Ψ = []) : e.AllFree Γ.Has := by
  induction e generalizing Ψ with
  | var _ | const _ | nil => trivial
  | unary op e ih => exact ih h
  | fst e ih | snd e ih =>
    have he := ih (issues_fst_eq_nil_iff.1 h).1
    exact he
  | letIn p a b iha ihb =>
    obtain ⟨ha, _, hb⟩ := issues_letIn_eq_nil_iff.1 h
    exact ⟨iha ha, ihb hb⟩
  | binary op a b iha ihb =>
    obtain ⟨ha, hb⟩ := issues_binary_eq_nil_iff.1 h
    exact ⟨iha ha, ihb hb⟩
  | pair a b iha ihb =>
    obtain ⟨ha, hb⟩ := issues_pair_eq_nil_iff.1 h
    exact ⟨iha ha, ihb hb⟩
  | cond a b c iha ihb ihc =>
    obtain ⟨ha, _, hb, hc⟩ := issues_cond_eq_nil_iff.1 h
    exact ⟨iha ha, ihb hb, ihc hc⟩
  | read r e ih =>
    obtain ⟨hhas, _, he⟩ := issues_read_eq_nil_iff.1 h
    exact ⟨hhas, ih he⟩
  | param r e ih =>
    obtain ⟨hhas, he⟩ := issues_param_eq_nil_iff.1 h
    exact ⟨hhas, ih he⟩

variable {e e' : Expr} (hm : m.Respects Γ Δ)

include hm

theorem ty_image_of_issues (he : e.Image m e') (h : e.issues Γ Ψ = []) : e'.ty = e.ty :=
  ty_image he ((allFree_of_issues h).mono fun r hr r' hr' => (hm r r' hr hr').1)

theorem issues_image (he : e.Image m e') (h : e.issues Γ Ψ = []) : e'.issues Δ Ψ = [] := by
  induction he generalizing Ψ with
  | var | const | nil => exact h
  | unary _ ih => exact ih h
  | fst ha ih | snd ha ih =>
    obtain ⟨h, hpair⟩ := issues_fst_eq_nil_iff.1 h
    have hty := ty_image_of_issues hm ha h
    exact issues_fst_eq_nil_iff.2 ⟨ih h, hty ▸ hpair⟩
  | letIn ha _ iha ihb =>
    obtain ⟨h, hp, hbody⟩ := issues_letIn_eq_nil_iff.1 h
    have hty := ty_image_of_issues hm ha h
    exact issues_letIn_eq_nil_iff.2 ⟨iha h, hp.trans hty.symm, ihb hbody⟩
  | binary _ _ iha ihb =>
    obtain ⟨hleft, hright⟩ := issues_binary_eq_nil_iff.1 h
    exact issues_binary_eq_nil_iff.2 ⟨iha hleft, ihb hright⟩
  | pair _ _ iha ihb =>
    obtain ⟨hleft, hright⟩ := issues_pair_eq_nil_iff.1 h
    exact issues_pair_eq_nil_iff.2 ⟨iha hleft, ihb hright⟩
  | cond ha _ _ iha ihb ihc =>
    obtain ⟨h, htest, htrue, hfalse⟩ := issues_cond_eq_nil_iff.1 h
    have hty := ty_image_of_issues hm ha h
    exact issues_cond_eq_nil_iff.2 ⟨iha h, hty.trans htest, ihb htrue, ihc hfalse⟩
  | read hr _ ih =>
    obtain ⟨hhas, harray, h⟩ := issues_read_eq_nil_iff.1 h
    obtain ⟨hty, hΔ⟩ := hm _ _ hhas hr
    exact issues_read_eq_nil_iff.2 ⟨hΔ, hty ▸ harray, ih h⟩
  | param hr _ ih =>
    obtain ⟨hhas, h⟩ := issues_param_eq_nil_iff.1 h
    exact issues_param_eq_nil_iff.2 ⟨(hm _ _ hhas hr).2, ih h⟩

end Expr

namespace Fn

variable {f f' : Fn}

theorem allFree_of_issuesIn (h : f.issuesIn Γ Ψ = []) : f.AllFree Γ.Has := by
  induction f generalizing Ψ with
  | lam p f ih =>
    have hf := ih h
    exact hf
  | body e => exact Expr.allFree_of_issues h

theorem issuesIn_image (hm : m.Respects Γ Δ) (hf : f.Image m f') (h : f.issuesIn Γ Ψ = []) :
    f'.issuesIn Δ Ψ = [] := by
  induction hf generalizing Ψ with
  | lam _ ih => exact ih h
  | body he => exact Expr.issues_image hm he h

end Fn

section Operand

variable (hm : m.Respects Γ Δ)

include hm

theorem Operand.issues_image {o o' : Operand} (ho : o.Image m o') (h : o.issues Γ = []) :
    o'.issues Δ = [] ∧ o'.param = o.param := by
  cases ho with
  | scalar hr =>
    obtain ⟨hty, hΔ⟩ := hm _ _ (Context.indexIssues_eq_nil_iff.1 h) hr
    exact ⟨Context.indexIssues_eq_nil_iff.2 hΔ, congrArg (Param.mk .scalar) hty⟩
  | function hf =>
    have hfree := (Fn.allFree_of_issuesIn h).mono fun r hr r' hr' => (hm r r' hr hr').1
    exact ⟨Fn.issuesIn_image hm hf h, congrArg (Param.mk .function) (Fn.ty_image hf hfree)⟩
  | input hs hb | output hs hb =>
    obtain ⟨hhas, hrank, hext⟩ := bufferIssues_eq_nil_iff.1 h
    obtain ⟨hty, hΔ⟩ := hm _ _ hhas hb
    refine ⟨bufferIssues_eq_nil_iff.2 ⟨hΔ, ?_, extents_image hm hs hext⟩,
      congrArg (Param.mk _) hty⟩
    rwa [← hs.length_eq, hty]

theorem operands_image {os os' : List Operand} (hos : List.Forall₂ (Operand.Image m) os os')
    (h : ∀ o ∈ os, o.issues Γ = []) :
    (∀ o ∈ os', o.issues Δ = []) ∧ signatureOf os' = signatureOf os := by
  induction hos with
  | nil => exact ⟨fun _ ho => (List.not_mem_nil ho).elim, rfl⟩
  | cons ho _ ih =>
    obtain ⟨h, hs⟩ := List.forall_mem_cons.1 h
    obtain ⟨hissues, hparam⟩ := Operand.issues_image hm ho h
    obtain ⟨hrest, hsig⟩ := ih hs
    refine ⟨List.forall_mem_cons.2 ⟨hissues, hrest⟩, ?_⟩
    rw [signatureOf_cons, signatureOf_cons, hsig]
    exact congrArg (· :: _) hparam

end Operand

namespace Program

variable {Op : Type} [Operation Op]

theorem issues_reindex {t t' : Program Op} (hm : m.Respects Γ Δ) (ht : t.reindex m = some t')
    (h : t.issues Γ = []) : t'.issues Δ = [] ∧ t'.ty = t.ty := by
  replace ht := reindex_eq_some_iff.1 ht
  induction ht generalizing Γ Δ with
  | exec ha =>
    obtain ⟨hcall, hargs⟩ := issues_exec_eq_nil_iff.1 h
    obtain ⟨hargs, hsig⟩ := operands_image hm ha hargs
    exact ⟨issues_exec_eq_nil_iff.2 ⟨hcall.trans hsig.symm, hargs⟩, rfl⟩
  | ret ht =>
    have hfree := issues_ret_eq_nil_iff.1 h
    exact ⟨issues_ret_eq_nil_iff.2 (Tuple.has_image hm ht hfree), Tuple.ty_image hm ht hfree⟩
  | compute he => exact ⟨Expr.issues_image hm he h, Expr.ty_image_of_issues hm he h⟩
  | alloc hs =>
    have hext := extents_image hm hs (issues_alloc_eq_nil_iff.1 h)
    exact ⟨issues_alloc_eq_nil_iff.2 hext, by rw [ty, ty, hs.length_eq]⟩
  | @letIn m p _ _ _ _ _ _ iha ihb =>
    obtain ⟨hbound, hp, hbody⟩ := issues_letIn_eq_nil_iff.1 h
    obtain ⟨hbound, hta⟩ := iha hm hbound
    obtain ⟨hbody, htb⟩ := ihb (hm.under p) hbody
    exact ⟨issues_letIn_eq_nil_iff.2 ⟨hbound, hp.trans hta.symm, hbody⟩, htb⟩
  | cond hr _ _ iha ihb =>
    obtain ⟨hhas, htest, htrue, hfalse⟩ := issues_cond_eq_nil_iff.1 h
    obtain ⟨hty, hΔ⟩ := hm _ _ hhas hr
    obtain ⟨htrue, hta⟩ := iha hm htrue
    have hfalse := (ihb hm hfalse).1
    exact ⟨issues_cond_eq_nil_iff.2 ⟨hΔ, hty.trans htest, htrue, hfalse⟩, hta⟩

/-- Whether the map makes room for slots, takes one away that is not used, puts references
in the place of slots, or leads in any other way from slots to slots of their types: a
program without issues stays so and has the type it had. -/
theorem reindex_keeps_typing (Γ : Context) :
    (∀ (Δ : Context) (m : Reindexing) (t t' : Program Op),
      (∀ r r' u, Γ.lookup r = .ok u → m r = some r' →
        r'.ty = r.ty ∧ ∃ u', Δ.lookup r' = .ok u') →
      t.reindex m = some t' → t.issues Γ = [] → t'.issues Δ = [] ∧ t'.ty = t.ty) ∧
    (∀ (ts : Context) (t : Program Op), t.issues Γ = [] →
      (t.weaken ts.length).issues (ts ++ Γ) = [] ∧ (t.weaken ts.length).ty = t.ty) ∧
    (∀ (k : Nat) (t t' : Program Op), t.reindex (.strengthen k) = some t' → t.issues Γ = [] →
      t'.issues (Γ.eraseIdx k) = [] ∧ t'.ty = t.ty) ∧
    ∀ (refs : List Ref) (t : Program Op), (∀ r ∈ refs, ∃ u, Γ.lookup r = .ok u) →
      t.issues (refs.map Ref.ty ++ Γ) = [] →
      ∃ t', t.reindex (.substitute refs) = some t' ∧ t'.issues Γ = [] ∧ t'.ty = t.ty := by
  refine ⟨fun Δ m t t' hm ht h => ?_, fun ts t h => ?_, fun k t t' ht h => ?_,
    fun refs t hrefs h => ?_⟩
  · refine issues_reindex (fun r r' hr hr' => ?_) ht h
    obtain ⟨u, hu⟩ := Context.has_iff_lookup.1 hr
    obtain ⟨hty, hΔ⟩ := hm r r' u hu hr'
    exact ⟨hty, Context.has_iff_lookup.2 hΔ⟩
  · exact issues_reindex (Reindexing.respects_weaken rfl) (reindex_eq_rename _ t) h
  · exact issues_reindex (Reindexing.respects_strengthen k) ht h
  · obtain ⟨t', ht⟩ := t.exists_reindex (Reindexing.total_substitute refs)
    have hhas : ∀ r ∈ refs, Γ.Has r := fun r hr => Context.has_iff_lookup.2 (hrefs r hr)
    exact ⟨t', ht, issues_reindex (Reindexing.respects_substitute hhas) ht h⟩

/-- A copy of an array, in an environment with a boolean on top that it does not use: with
the slots in another order, under one more slot, without the boolean, and with references
to two slots further out. -/
theorem reindex_keeps_typing_copy :
    let i : Ty := .int 64
    let a : Ty := .array 1 i
    let Γ : Context := [.bool, i, a]
    let copy (extent array : Nat) : Program Kernel :=
      .letIn (.slot a) (.alloc i [⟨extent, i⟩])
        (.letIn (.wild .unit)
          (.exec (.map 1 i i (.unary i (.var ⟨0, i⟩)))
            [.input [⟨extent + 1, i⟩] ⟨array + 1, a⟩, .output [⟨extent + 1, i⟩] ⟨0, a⟩])
          (.ret (.ref ⟨0, a⟩)))
    let t := copy 1 2
    t.issues Γ = [] ∧
      (t.reindex (.table [some 1, some 2, some 0]) = some (copy 2 0) ∧
        (copy 2 0).issues [a, .bool, i] = [] ∧ (copy 2 0).ty = t.ty) ∧
      ((t.weaken 1).issues (i :: Γ) = [] ∧ (t.weaken 1).ty = t.ty) ∧
      (t.reindex (.strengthen 0) = some (copy 0 1) ∧
        (copy 0 1).issues [i, a] = [] ∧ (copy 0 1).ty = t.ty) ∧
      ∃ t', (copy 0 1).reindex (.substitute [⟨1, i⟩, ⟨2, a⟩]) = some t' ∧ t'.issues Γ = [] ∧
        t'.ty = (copy 0 1).ty := by
  intro i a Γ copy t
  obtain ⟨hany, hweaken, hstrengthen, hsubstitute⟩ := @reindex_keeps_typing Kernel _ Γ
  have ht : t.issues Γ = [] := by decide
  have hcopy : (copy 0 1).issues ([⟨1, i⟩, ⟨2, a⟩].map Ref.ty ++ Γ) = [] := by decide
  refine ⟨ht, ⟨rfl, hany _ (.table [some 1, some 2, some 0]) t _ ?_ rfl ht⟩, hweaken [i] t ht,
    ⟨rfl, hstrengthen 0 t _ rfl ht⟩, hsubstitute _ _ ?_ hcopy⟩
  · rintro ⟨n, ty⟩ r' u hr hm
    have hget := (Context.lookup_eq_ok_iff.1 hr).1
    have hty := (Context.lookup_eq_ok_iff.1 hr).2
    rcases n with _ | _ | _ | n
    · cases hm
      exact ⟨rfl, _, Context.lookup_eq_ok_iff.2 ⟨hget, hty⟩⟩
    · cases hm
      exact ⟨rfl, _, Context.lookup_eq_ok_iff.2 ⟨hget, hty⟩⟩
    · cases hm
      exact ⟨rfl, _, Context.lookup_eq_ok_iff.2 ⟨hget, hty⟩⟩
    · cases hget
  · intro r hr
    simp only [List.mem_cons, List.not_mem_nil, or_false] at hr
    rcases hr with rfl | rfl
    · exact ⟨_, rfl⟩
    · exact ⟨_, rfl⟩

end Program

end ArrayFusion

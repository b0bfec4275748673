import ArrayFusion.Kernel.Execute
import ArrayFusion.Proofs.Program.Environment
import ArrayFusion.Proofs.Program.Free
set_option autoImplicit false

/-!
Reindexing keeps the meaning of a term if its references find the same values as
before. Where a program does not come to the references that find nothing, they
do no harm, unless its faults are to be the same as well.
-/

namespace ArrayFusion

open ArrayFusion.Action

variable {faults : Prop} {env env' : Stack} {m : Reindexing}

/-- The second reference finds in the second environment what the first one finds
in the first environment. -/
structure Ref.Matches (faults : Prop) (env env' : Stack) (r r' : Ref) : Prop where
  ty : r'.ty = r.ty
  value : ∀ v, env[r.index]? = some v → env'[r'.index]? = some v
  found : faults → (env[r.index]?).isSome

theorem Ref.Matches.lookup {r r' : Ref} (h : r.Matches faults env env' r') :
    CoupledAnswers faults Eq (env.lookup r) (env'.lookup r') := by
  unfold Stack.lookup
  cases hv : env[r.index]? with
  | some v =>
    rw [h.value v hv]
    exact rfl
  | none =>
    have hnot : ¬faults := fun hf => by simpa [hv] using h.found hf
    cases env'[r'.index]? with
    | some v => exact hnot
    | none => exact fun hf => (hnot hf).elim

def Reindexing.Fits (m : Reindexing) (faults : Prop) (env env' : Stack) (r : Ref) : Prop :=
  ∀ r', m r = some r' → r.Matches faults env env' r'

theorem Reindexing.Fits.sink {vs : Stack} {n : Nat} (hn : vs.length = n) {r : Ref}
    (h : n ≤ r.index → m.Fits faults env env' (r.lowered n)) :
    (m.sink n).Fits faults (vs ++ env) (vs ++ env') r := by
  intro r' hr
  by_cases hlt : r.index < n
  · cases (sink_of_lt hlt).symm.trans hr
    have hget : ∀ e : Stack, (vs ++ e)[r.index]? = vs[r.index]? := fun e =>
      List.getElem?_append_left (by omega)
    exact ⟨rfl, fun v hv => by rw [hget] at hv ⊢ ; exact hv, fun _ => by rw [hget] ; simp [hn, hlt]⟩
  · have hle := Nat.not_lt.1 hlt
    obtain ⟨s, hs, rfl⟩ := sink_eq_some hr hle
    have hm := h hle s hs
    have hleft : (vs ++ env)[r.index]? = env[(r.lowered n).index]? := by
      rw [List.getElem?_append_right (by omega), hn]
      rfl
    have hright : (vs ++ env')[(s.shifted n).index]? = env'[s.index]? := by
      rw [Ref.index_shifted, List.getElem?_append_right (by omega), hn, Nat.add_sub_cancel]
    refine ⟨hm.ty, fun v hv => ?_, fun hf => ?_⟩
    · rw [hright]
      exact hm.value v (hleft ▸ hv)
    · rw [hleft]
      exact hm.found hf

theorem Expr.eval_kept {e e' : Expr} (he : e.Image m e')
    (hf : e.AllFree (m.Fits faults env env')) (heap : Heap) :
    Kept faults (e.eval env heap) (e'.eval env' heap) := by
  induction he with
  | var | const | nil => exact kept_refl _
  | letIn _ _ iha ihb =>
    exact (iha hf.1).bind fun v => (kept_refl _).bind fun scope => (kept_refl _).bind fun _ =>
      (ihb hf.2).afterwards _
  | unary _ ih | fst _ ih | snd _ ih => exact (ih hf).bind fun v => kept_refl _
  | binary _ _ iha ihb =>
    exact (iha hf.1).bind fun v => (kept_refl _).bind fun x => (ihb hf.2).bind fun w => kept_refl _
  | pair _ _ iha ihb => exact (iha hf.1).bind fun v => (ihb hf.2).bind fun w => kept_refl _
  | cond _ _ _ iha ihb ihc =>
    refine (iha hf.1).bind fun v => (kept_refl _).bind fun x => ?_
    cases x with
    | bool t =>
      cases t
      · exact ihc hf.2.2
      · exact ihb hf.2.1
    | int _ | float _ => exact kept_refl _
  | read hr _ ih =>
    exact (kept_ofExcept (hf.1 _ hr).lookup).bind fun v => (kept_refl _).bind fun b =>
      (ih hf.2).bind fun w => kept_refl _
  | param hr _ _ => exact kept_ofExcept (hf.1 _ hr).lookup

theorem Tuple.value_coupled {t t' : Tuple} (ht : t.Image m t')
    (hf : t.AllFree (m.Fits faults env env')) :
    CoupledAnswers faults Eq (t.value env) (t'.value env') := by
  induction ht with
  | unit => exact .of_eq rfl
  | ref hr => exact (hf _ hr).lookup
  | pair _ _ iha ihb =>
    refine (iha hf.1).bind fun v _ hv => (ihb hf.2).bind fun w _ hw => ?_
    rw [hv, hw]
    exact .of_eq rfl

theorem Stack.extents_coupled {rs rs' : List Ref} (hrs : ImageRefs m rs rs')
    (hf : ∀ r ∈ rs, m.Fits faults env env' r) :
    CoupledAnswers faults Eq (env.extents rs) (env'.extents rs') := by
  induction hrs with
  | nil => exact .of_eq rfl
  | cons hr _ ih =>
    obtain ⟨hfr, hfs⟩ := List.forall_mem_cons.1 hf
    refine (hfr _ hr).lookup.bind fun v _ hv => ?_
    subst hv
    refine (CoupledAnswers.of_eq rfl).bind fun n _ hn => (ih hfs).bind fun ns _ hns => ?_
    rw [hn, hns]
    exact .of_eq rfl

theorem Expr.toOption_ty?_image {e e' : Expr} (he : e.Image m e')
    (hf : e.AllFree fun r => ∀ r', m r = some r' → r'.ty = r.ty) :
    e'.ty?.toOption = e.ty?.toOption := by
  induction he with
  | var | const | nil => rfl
  | letIn _ _ _ ihb => exact ihb hf.2
  | @unary op _ _ _ ih =>
    cases op
    · exact ih hf
    · rfl
  | fst _ ih | snd _ ih => simp only [ty?, toOption_bind, ih hf]
  | binary _ _ iha _ =>
    unfold ty?
    split
    · rfl
    · exact iha hf.1
  | pair _ _ iha ihb => simp only [ty?, toOption_bind, iha hf.1, ihb hf.2]
  | cond _ _ _ _ ihb _ => exact ihb hf.2.1
  | @read r _ _ _ hr _ _ =>
    unfold ty?
    rw [hf.1 _ hr]
    cases r.ty.asArray <;> rfl
  | param hr _ _ =>
    unfold ty?
    rw [hf.1 _ hr]

theorem Expr.ty_eq_getD (e : Expr) : e.ty = e.ty?.toOption.getD .unit := by
  unfold ty
  cases e.ty? <;> rfl

theorem Expr.ty_image {e e' : Expr} (he : e.Image m e')
    (hf : e.AllFree fun r => ∀ r', m r = some r' → r'.ty = r.ty) : e'.ty = e.ty := by
  rw [ty_eq_getD, ty_eq_getD, toOption_ty?_image he hf]

theorem Fn.ty_image {f f' : Fn} (h : f.Image m f')
    (hf : f.AllFree fun r => ∀ r', m r = some r' → r'.ty = r.ty) : f'.ty = f.ty := by
  induction h with
  | @lam p _ _ _ ih => exact congrArg (Ty.arrow p.ty) (ih hf)
  | body he => exact Expr.ty_image he hf

def Actual.view (a : Actual) : Param × Option BufferId := (a.param, a.buffer?)

theorem Kernel.execute_congr (k : Kernel) {as as' : List Actual}
    (h : as.map Actual.view = as'.map Actual.view) : k.execute as = k.execute as' := by
  have hs : signatureOf as = signatureOf as' := by
    have hfst := congrArg (List.map Prod.fst) h
    rw [List.map_map, List.map_map] at hfst
    exact hfst
  have hb : as.filterMap Actual.buffer? = as'.filterMap Actual.buffer? := by
    have hsnd := congrArg (List.filterMap Prod.snd) h
    rw [List.filterMap_map, List.filterMap_map] at hsnd
    exact hsnd
  unfold execute Signature.check
  rw [hs, hb]

theorem Operand.resolve_coupled {o o' : Operand} (ho : o.Image m o')
    (hf : o.AllFree (m.Fits faults env env')) :
    CoupledAnswers faults (fun a a' => a.view = a'.view) (o.resolve env) (o'.resolve env') := by
  cases ho with
  | scalar hr =>
    refine (hf _ hr).lookup.bind fun v _ hv => ?_
    subst hv
    exact (CoupledAnswers.of_eq rfl).bind fun x _ hx => congrArg (Actual.view ∘ .scalar) hx
  | function himage =>
    have ht := Fn.ty_image himage (hf.mono fun r hr r' h => (hr r' h).ty)
    simp only [resolve, CoupledAnswers, Actual.view, Actual.param, Actual.buffer?, ht]
  | input _ hb | output _ hb =>
    have hm := hf.2 _ hb
    refine hm.lookup.bind fun v _ hv => ?_
    subst hv
    refine (CoupledAnswers.of_eq rfl).bind fun x _ hx => ?_
    subst hx
    simp only [CoupledAnswers, Actual.view, Actual.param, hm.ty]

theorem resolveAll_coupled {os os' : List Operand} (hos : List.Forall₂ (Operand.Image m) os os')
    (hf : ∀ o ∈ os, o.AllFree (m.Fits faults env env')) :
    CoupledAnswers faults (fun as as' => as.map Actual.view = as'.map Actual.view)
      (resolveAll env os) (resolveAll env' os') := by
  induction hos with
  | nil => exact rfl
  | cons ho _ ih =>
    obtain ⟨hfo, hfs⟩ := List.forall_mem_cons.1 hf
    refine (Operand.resolve_coupled ho hfo).bind fun a a' ha =>
      (ih hfs).bind fun as as' has => ?_
    simp only [CoupledAnswers, List.map_cons, ha, has]

namespace Program

/-- The references of a program find the same values, and so it does the same. -/
theorem runIn_kept {t t' : Program Kernel} (ht : t.reindex m = some t')
    (hf : t.AllFree (m.Fits faults env env')) : Kept faults (t.runIn env) (t'.runIn env') := by
  replace ht := reindex_eq_some_iff.1 ht
  induction ht generalizing env env' with
  | @exec m op args args' ha =>
    let alike := fun (as as' : List Actual) (s t : Heap) =>
      s = t ∧ as.map Actual.view = as'.map Actual.view
    have hres : Coupled faults Eq alike Eq (Action.ofExcept (resolveAll env args))
        (Action.ofExcept (resolveAll env' args')) := by
      refine coupled_observe (f := fun _ => _) (g := fun _ => _) (fun s t hst => ?_) fun _ _ h => h
      exact (resolveAll_coupled ha hf).mono fun as as' h => ⟨hst, h⟩
    refine hres.bind fun as as' s t hm => ?_
    have hop : Executable.execute op as = Executable.execute op as' := op.execute_congr hm.2
    rw [hop]
    exact kept_refl _ s t hm.1
  | ret ht => exact kept_ofExcept (Tuple.value_coupled ht hf)
  | compute he =>
    refine coupled_observe (fun h h' hh => ?_) fun _ _ hh => hh
    subst hh
    exact (Expr.eval_kept he hf h).answer.mono fun v w hv => ⟨hv, rfl⟩
  | alloc hs => exact (kept_ofExcept (Stack.extents_coupled hs hf)).bind fun ns => kept_refl _
  | letIn _ _ iha ihb =>
    refine (iha hf.1).bind fun v => kept_ofExcept_bind fun vs hvs => ihb ?_
    exact hf.2.mono fun r hr => Reindexing.Fits.sink (Pattern.length_slots hvs) hr
  | cond hr _ _ iha ihb =>
    refine (kept_ofExcept (hf.1 _ hr).lookup).bind fun v => (kept_refl _).bind fun x => ?_
    cases x with
    | bool t =>
      cases t
      · exact ihb hf.2.2
      · exact iha hf.2.1
    | int _ | float _ => exact kept_refl _

end Program

namespace Reindexing

def KeepsTy (m : Reindexing) : Prop := ∀ r r', m r = some r' → r'.ty = r.ty

def KeepsValue (m : Reindexing) (env env' : Stack) (r : Ref) : Prop :=
  ∀ r', m r = some r' → ∃ v, env.lookup r = .ok v ∧ env'.lookup r' = .ok v

theorem KeepsValue.fits {r : Ref} (hm : m.KeepsTy) (h : m.KeepsValue env env' r) :
    m.Fits True env env' r := by
  intro r' hr
  obtain ⟨v, hv, hv'⟩ := h r' hr
  rw [Stack.lookup_eq_ok_iff] at hv hv'
  refine ⟨hm r r' hr, fun w hw => ?_, fun _ => ?_⟩
  · rw [hv'] ; exact hv.symm.trans hw
  · rw [hv] ; rfl

end Reindexing

namespace Program

/-- A program that finds the values of its references in other places gives the same
answer, be it a value or a fault, and leaves the same heap. -/
theorem effect_reindex (t t' : Program Kernel) (m : Reindexing) (hm : m.KeepsTy)
    (ht : t.reindex m = some t') (env env' : Stack) (hfree : t.AllFree (m.KeepsValue env env'))
    (heap : Heap) : t'.effect env' heap = t.effect env heap := by
  rw [effect_eq_outcome, effect_eq_outcome]
  exact (runIn_kept ht (hfree.mono fun _ h => h.fits hm)).outcome_eq heap

/-- An element read from the outer of two slots that change places, under a binder as
well as outside of it. -/
theorem effect_reindex_swap :
    let i : Ty := .int 64
    let v : Ty := .array 1 i
    let m : Reindexing := .table [some 1, some 0]
    let t : Program Kernel :=
      .letIn (.slot i) (.compute (.read ⟨1, v⟩ (.param ⟨0, i⟩ .nil)))
        (.ret (.pair (.ref ⟨0, i⟩) (.pair (.ref ⟨1, i⟩) (.ref ⟨2, v⟩))))
    let t' : Program Kernel :=
      .letIn (.slot i) (.compute (.read ⟨0, v⟩ (.param ⟨1, i⟩ .nil)))
        (.ret (.pair (.ref ⟨0, i⟩) (.pair (.ref ⟨2, i⟩) (.ref ⟨1, v⟩))))
    let env : Stack := [.scalar (.int 1), .buffer ⟨0⟩]
    let env' : Stack := [.buffer ⟨0⟩, .scalar (.int 1)]
    let heap : Heap := ⟨[some ⟨[2], [.int 3, .int 4]⟩]⟩
    m.KeepsTy ∧ t.reindex m = some t' ∧ t.AllFree (m.KeepsValue env env') ∧
      t.effect env heap =
        (.ok (.pair (.scalar (.int 4)) (.pair (.scalar (.int 1)) (.buffer ⟨0⟩))), heap) ∧
      t'.effect env' heap = t.effect env heap := by
  intro i v m t t' env env' heap
  have hm : m.KeepsTy := by
    intro r r' hr
    obtain ⟨_, _, rfl⟩ := Option.map_eq_some_iff.1 hr
    rfl
  have hfree : t.AllFree (m.KeepsValue env env') := by
    have hi : m.KeepsValue env env' ⟨0, i⟩ := by
      rintro _ ⟨⟩
      exact ⟨.scalar (.int 1), rfl, rfl⟩
    have hv : m.KeepsValue env env' ⟨1, v⟩ := by
      rintro _ ⟨⟩
      exact ⟨.buffer ⟨0⟩, rfl, rfl⟩
    refine ⟨⟨hv, hi, trivial⟩, fun hle => ?_, fun _ => hi, fun _ => hv⟩
    exact absurd hle (by decide)
  exact ⟨hm, rfl, hfree, rfl, effect_reindex t t' m hm rfl env env' hfree heap⟩

end Program

end ArrayFusion

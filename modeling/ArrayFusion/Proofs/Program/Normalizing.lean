import ArrayFusion.Proofs.Pattern.Typing
import ArrayFusion.Proofs.Program.Binding
import ArrayFusion.Proofs.Program.Typing
set_option autoImplicit false

namespace ArrayFusion

variable {Op : Type} [Operation Op] {Γ : Context}

section Respects

theorem Program.respects_lift {ts us : Context} {above known : Nat} (ht : ts.length = above)
    (hu : us.length = known) : (lift above known).Respects (us ++ Γ) (us ++ (ts ++ Γ)) :=
  (Reindexing.respects_weaken ht).sink hu

theorem Reindexing.respects_underRebuilt {p q : Pattern} {m : Reindexing}
    (h : underRebuilt (.weaken 0) p q = .ok m) : m.Respects (Γ.enter p) (Γ.enter q) := by
  obtain ⟨slots, hslots, h⟩ := bind_eq_ok.1 h
  cases h
  have hlen : p.slotTys.length = slots.length := by
    rw [Pattern.length_slotTys, Pattern.length_slotMap hslots]
  intro r r' hr hs
  unfold rebuild at hs
  cases hget : slots[r.index]? with
  | some slot =>
    rw [hget] at hs
    obtain ⟨j, rfl, rfl⟩ := Option.map_eq_some_iff.1 hs
    have hlt : r.index < p.slotTys.length := hlen ▸ (List.getElem?_eq_some_iff.1 hget).1
    have hold := (Context.has_append_of_lt hlt).1 hr
    have hnew : Context.Has q.slotTys ⟨j, r.ty⟩ :=
      (Pattern.slotTys_slotMap hslots r.index j hget).trans hold
    exact ⟨rfl, (Context.has_append_of_lt hnew.index_lt).2 hnew⟩
  | none =>
    rw [hget] at hs
    cases hs
    have hle : p.slotTys.length ≤ r.index := hlen ▸ List.getElem?_eq_none_iff.1 hget
    refine ⟨rfl, ?_⟩
    rw [Ref.shifted_zero, ← q.length_slotTys]
    exact Context.has_append_shifted.2 (hlen ▸ (Context.has_append_of_le hle).1 hr)

end Respects

namespace Program

theorem issues_lifted {ts us : Context} {above known : Nat} (ht : ts.length = above)
    (hu : us.length = known) {t : Program Op} (h : t.issues (us ++ Γ) = []) :
    (t.lifted above known).issues (us ++ (ts ++ Γ)) = [] ∧ (t.lifted above known).ty = t.ty :=
  issues_reindex (respects_lift ht hu) (reindex_lift above known t) h

theorem issues_float {p q : Pattern} {a b body : Program Op}
    (h : (Program.letIn p (.letIn q a b) body).issues Γ = []) :
    (float p q a b body).issues Γ = [] ∧ (float p q a b body).ty = body.ty := by
  obtain ⟨hbound, hp, hbody⟩ := issues_letIn_eq_nil_iff.1 h
  obtain ⟨ha, hq, hb⟩ := issues_letIn_eq_nil_iff.1 hbound
  obtain ⟨hlifted, hty⟩ := issues_lifted q.length_slotTys p.length_slotTys hbody
  exact ⟨issues_letIn_eq_nil_iff.2 ⟨ha, hq, issues_letIn_eq_nil_iff.2 ⟨hb, hp, hlifted⟩⟩, hty⟩

theorem issues_letBind {p : Pattern} {bound body : Program Op}
    (h : (Program.letIn p bound body).issues Γ = []) :
    (letBind p bound body).issues Γ = [] ∧ (letBind p bound body).ty = body.ty := by
  induction bound generalizing p body Γ with
  | exec _ _ | compute _ | alloc _ _ | cond _ _ _ _ _ => exact ⟨h, rfl⟩
  | letIn q a b iha ihb =>
    obtain ⟨hfloat, hty⟩ := issues_float h
    obtain ⟨ha, hq, hrest⟩ := issues_letIn_eq_nil_iff.1 hfloat
    obtain ⟨hinner, htb⟩ := ihb hrest
    obtain ⟨houter, hta⟩ := iha (issues_letIn_eq_nil_iff.2 ⟨ha, hq, hinner⟩)
    rw [letBind]
    exact ⟨houter, hta.trans (htb.trans hty)⟩
  | ret t =>
    obtain ⟨ht, hp, hbody⟩ := issues_letIn_eq_nil_iff.1 h
    rw [letBind]
    split
    · rename_i hd
      rw [Pattern.enter_of_discards (Bool.and_eq_true_iff.1 hd).1] at hbody
      exact ⟨hbody, rfl⟩
    · split
      · rename_i refs hs
        have hrefs := Pattern.forall_mem_substitution? hs (issues_ret_eq_nil_iff.1 ht)
        rw [Context.enter, Pattern.slotTys_substitution? hs] at hbody
        exact issues_reindex (Reindexing.respects_substitute hrefs) (reindex_eq_rename _ body) hbody
      · exact ⟨h, rfl⟩

theorem has_resultTuple (t : Ty) : (resultTuple t).AllFree (Γ.enter (Pattern.ofTy t)).Has := by
  obtain ⟨u, hres⟩ := Pattern.exists_tupleUnder_ofTy t 0
  rw [resultTuple, Pattern.tuple?, hres]
  exact Pattern.has_tupleUnder hres (rfl : [].length = 0) Γ

theorem ty_resultTuple {t : Ty} (h : t.WellFormed) : (resultTuple t).ty = t := by
  obtain ⟨u, hres⟩ := Pattern.exists_tupleUnder_ofTy t 0
  rw [resultTuple, Pattern.tuple?, hres]
  exact Pattern.ty_tupleUnder_ofTy h hres

section Pair

/- As at a run: the second program lives in `Γ`, where its own bindings have added
`under`, and in the pair the slots `as` of the first program lie between the two. -/
variable {under as : Context} {above known : Nat} {first : Tuple}

theorem issues_pairAfter_ret (ha : as.length = above) (hu : under.length = known)
    (hfirst : first.AllFree (Context.Has (as ++ Γ))) {t : Tuple}
    (ht : t.AllFree (Context.Has (under ++ Γ))) :
    (pairAfter first above known (.ret t : Program Op)).issues (under ++ (as ++ Γ)) = [] ∧
      (pairAfter first above known (.ret t : Program Op)).ty = .pair first.ty t.ty := by
  have hweaken : (Reindexing.weaken known).Respects (as ++ Γ) (under ++ (as ++ Γ)) :=
    Reindexing.respects_weaken hu
  have hlift : (lift above known).Respects (under ++ Γ) (under ++ (as ++ Γ)) :=
    respects_lift ha hu
  have hleft := Tuple.image_rename (Reindexing.total_weaken known) first
  have hright := Tuple.image_rename (total_lift above known) t
  constructor
  · exact issues_ret_eq_nil_iff.2
      ⟨Tuple.has_image hweaken hleft hfirst, Tuple.has_image hlift hright ht⟩
  · simp only [pairAfter, ty, Tuple.ty, Tuple.weaken, Tuple.ty_image hweaken hleft hfirst,
      Tuple.ty_image hlift hright ht]

theorem issues_pairAfter_result {t : Program Op} (ha : as.length = above)
    (hu : under.length = known) (hfirst : first.AllFree (Context.Has (as ++ Γ)))
    (h : t.issues (under ++ Γ) = []) (hw : t.ty.WellFormed) :
    let p := Pattern.ofTy t.ty
    let result : Program Op := .letIn p (t.lifted above known)
      (pairAfter first above (known + p.size) (.ret (resultTuple t.ty)))
    result.issues (under ++ (as ++ Γ)) = [] ∧ result.ty = .pair first.ty t.ty := by
  intro p result
  obtain ⟨hlifted, hty⟩ := issues_lifted ha hu h
  have hlen : (p.slotTys ++ under).length = known + p.size := by simp [hu, Nat.add_comm]
  have hres : (resultTuple t.ty).AllFree (Context.Has ((p.slotTys ++ under) ++ Γ)) := by
    rw [List.append_assoc]
    exact has_resultTuple t.ty
  have hret : (pairAfter first above (known + p.size)
      (.ret (resultTuple t.ty) : Program Op)).issues _ = [] ∧ _ :=
    issues_pairAfter_ret ha hlen hfirst hres
  rw [List.append_assoc, ty_resultTuple hw] at hret
  exact ⟨issues_letIn_eq_nil_iff.2 ⟨hlifted, (Pattern.ty_ofTy _).trans hty.symm, hret.1⟩, hret.2⟩

theorem issues_pairAfter {second : Program Op} (ha : as.length = above)
    (hu : under.length = known) (hfirst : first.AllFree (Context.Has (as ++ Γ)))
    (h : second.issues (under ++ Γ) = []) (hw : second.ty.WellFormed) :
    (pairAfter first above known second).issues (under ++ (as ++ Γ)) = [] ∧
      (pairAfter first above known second).ty = .pair first.ty second.ty := by
  induction second generalizing under known with
  | letIn p bound body _ ih =>
    obtain ⟨hbound, hp, hbody⟩ := issues_letIn_eq_nil_iff.1 h
    obtain ⟨hbound, hty⟩ := issues_lifted ha hu hbound
    have hlen : (p.slotTys ++ under).length = known + p.size := by simp [hu, Nat.add_comm]
    rw [Context.enter, ← List.append_assoc] at hbody
    obtain ⟨hrest, htr⟩ := ih hlen hbody hw
    rw [List.append_assoc] at hrest
    exact ⟨issues_letIn_eq_nil_iff.2 ⟨hbound, hp.trans hty.symm, hrest⟩, htr⟩
  | ret t => exact issues_pairAfter_ret ha hu hfirst (issues_ret_eq_nil_iff.1 h)
  | exec _ _ | compute _ | alloc _ _ | cond _ _ _ _ _ =>
    exact issues_pairAfter_result ha hu hfirst h hw

theorem issues_pairFrom_result {t second : Program Op} (ha : as.length = above)
    (h : t.issues (as ++ Γ) = []) (hw : t.ty.WellFormed) (hsecond : second.issues Γ = [])
    (hws : second.ty.WellFormed) :
    let p := Pattern.ofTy t.ty
    let result : Program Op :=
      .letIn p t (pairAfter (resultTuple t.ty) (above + p.size) 0 second)
    result.issues (as ++ Γ) = [] ∧ result.ty = .pair t.ty second.ty := by
  intro p result
  have hlen : (p.slotTys ++ as).length = above + p.size := by simp [ha, Nat.add_comm]
  have hres : (resultTuple t.ty).AllFree (Context.Has ((p.slotTys ++ as) ++ Γ)) := by
    rw [List.append_assoc]
    exact has_resultTuple t.ty
  have hpair := issues_pairAfter hlen (rfl : [].length = 0) hres hsecond hws
  rw [List.nil_append, List.append_assoc, ty_resultTuple hw] at hpair
  exact ⟨issues_letIn_eq_nil_iff.2 ⟨h, Pattern.ty_ofTy _, hpair.1⟩, hpair.2⟩

theorem issues_pairFrom {first second : Program Op} (ha : as.length = above)
    (hfirst : first.issues (as ++ Γ) = []) (hwf : first.ty.WellFormed)
    (hsecond : second.issues Γ = []) (hws : second.ty.WellFormed) :
    (pairFrom second above first).issues (as ++ Γ) = [] ∧
      (pairFrom second above first).ty = .pair first.ty second.ty := by
  induction first generalizing as above with
  | letIn p bound body _ ih =>
    obtain ⟨hbound, hp, hbody⟩ := issues_letIn_eq_nil_iff.1 hfirst
    have hlen : (p.slotTys ++ as).length = above + p.size := by simp [ha, Nat.add_comm]
    rw [Context.enter, ← List.append_assoc] at hbody
    obtain ⟨hrest, hty⟩ := ih hlen hbody hwf
    rw [List.append_assoc] at hrest
    exact ⟨issues_letIn_eq_nil_iff.2 ⟨hbound, hp, hrest⟩, hty⟩
  | ret t =>
    exact issues_pairAfter ha (rfl : [].length = 0) (issues_ret_eq_nil_iff.1 hfirst) hsecond hws
  | exec _ _ | compute _ | alloc _ _ | cond _ _ _ _ _ =>
    exact issues_pairFrom_result ha hfirst hwf hsecond hws

end Pair

theorem issues_sweep (todo kept : Nat) {p : Pattern} {bound body : Program Op}
    (h : (Program.letIn p bound body).issues Γ = []) :
    (Program.letIn (sweep todo kept p body).1 bound (sweep todo kept p body).2).issues Γ = [] ∧
      (sweep todo kept p body).2.ty = body.ty := by
  induction todo generalizing kept p body with
  | zero => exact ⟨h, rfl⟩
  | succ todo ih =>
    unfold sweep
    split
    · exact ⟨h, rfl⟩
    · rename_i q hq
      split
      · exact ih (kept + 1) h
      · rename_i m hm
        split
        · rename_i body' hb
          obtain ⟨hbound, hp, hbody⟩ := issues_letIn_eq_nil_iff.1 h
          obtain ⟨hbody, hty⟩ := issues_reindex (Reindexing.respects_underRebuilt hm) hb hbody
          have hpq := (Pattern.ty_dropSlot? hq).trans hp
          obtain ⟨hrest, htr⟩ := ih kept (issues_letIn_eq_nil_iff.2 ⟨hbound, hpq, hbody⟩)
          exact ⟨hrest, htr.trans hty⟩
        · exact ih (kept + 1) h

theorem issues_dropUnused {t : Program Op} (h : t.issues Γ = []) :
    t.dropUnused.issues Γ = [] ∧ t.dropUnused.ty = t.ty := by
  cases t with
  | exec _ _ | ret _ | compute _ | alloc _ _ | cond _ _ _ => exact ⟨h, rfl⟩
  | letIn p bound body =>
    obtain ⟨hsweep, hty⟩ := issues_sweep p.size 0 h
    rw [dropUnused]
    split
    rename_i q body' hq
    rw [hq] at hsweep hty
    split
    · rename_i hd
      have hbody := (issues_letIn_eq_nil_iff.1 hsweep).2.2
      rw [Pattern.enter_of_discards (Bool.and_eq_true_iff.1 hd).1] at hbody
      exact ⟨hbody, hty⟩
    · exact ⟨hsweep, hty⟩

/-- A simplified binding, a pair and a binding without its unused slots are free of
issues and have the types that they should have. No term is left without an image on
the way, since the maps that are applied to it are total. -/
theorem normalizing_keeps_typing (Γ : Context) :
    (∀ (p : Pattern) (bound body : Program Op), (Program.letIn p bound body).issues Γ = [] →
      (letBind p bound body).issues Γ = [] ∧ (letBind p bound body).ty = body.ty) ∧
    (∀ first second : Program Op, first.issues Γ = [] → second.issues Γ = [] →
      first.ty.WellFormed → second.ty.WellFormed →
      (pair first second).issues Γ = [] ∧ (pair first second).ty = .pair first.ty second.ty) ∧
    (∀ t : Program Op, t.issues Γ = [] →
      t.dropUnused.issues Γ = [] ∧ t.dropUnused.ty = t.ty) ∧
    (∀ (t : Program Op) (u : Tuple) (above known : Nat) (refs : List Ref),
      (t.reindex (lift above known)).isSome ∧ (t.reindex (.substitute refs)).isSome ∧
        (u.reindex (lift above known)).isSome ∧ (u.reindex (.weaken known)).isSome) := by
  refine ⟨fun p bound body h => issues_letBind h, fun first second ha hb hwa hwb => ?_,
    fun t h => issues_dropUnused h, fun t u above known refs => ⟨?_, ?_, ?_, ?_⟩⟩
  · exact issues_pairFrom (rfl : [].length = 0) ha hwa hb hwb
  · simp [reindex_eq_rename (total_lift above known) t]
  · simp [reindex_eq_rename (Reindexing.total_substitute refs) t]
  · simp [Tuple.reindex_eq_rename (total_lift above known) u]
  · simp [Tuple.reindex_eq_rename (Reindexing.total_weaken known) u]

/-- A nested binding whose result is substituted, two conditionals that are paired, and
the middle one of three slots that goes away. -/
theorem normalizing_keeps_typing_conditional :
    let i : Ty := .int 64
    let Γ : Context := [.bool, i]
    let literal : Program Kernel := .compute (.const (.int 2))
    let p : Pattern := .pair (.wild i) (.slot i)
    let bound : Program Kernel :=
      .letIn (.slot i) literal (.ret (.pair (.ref ⟨0, i⟩) (.ref ⟨2, i⟩)))
    let body : Program Kernel := .ret (.pair (.ref ⟨0, i⟩) (.ref ⟨1, .bool⟩))
    let choice : Program Kernel := .cond ⟨0, .bool⟩
      (.ret (.pair (.ref ⟨1, i⟩) .unit))
      (.letIn (.slot i) literal (.ret (.pair (.ref ⟨0, i⟩) .unit)))
    let q : Pattern := .pair (.slot i) (.pair (.slot .bool) (.slot i))
    let t : Program Kernel :=
      .letIn q (.ret (.pair (.ref ⟨1, i⟩) (.pair (.ref ⟨0, .bool⟩) (.ref ⟨1, i⟩))))
        (.ret (.pair (.ref ⟨0, i⟩) (.ref ⟨2, i⟩)))
    let result : Ty := .pair (.pair i .unit) (.pair i .unit)
    (letBind p bound body =
        .letIn (.slot i) literal (.ret (.pair (.ref ⟨2, i⟩) (.ref ⟨1, .bool⟩))) ∧
      (letBind p bound body).issues Γ = [] ∧ (letBind p bound body).ty = .pair i .bool) ∧
    ((pair choice choice).issues Γ = [] ∧ (pair choice choice).ty = result) ∧
    (t.dropUnused.issues Γ = [] ∧ t.dropUnused.ty = .pair i i) := by
  intro i Γ literal p bound body choice q t result
  obtain ⟨hbind, hpair, hdrop, _⟩ := @normalizing_keeps_typing Kernel _ Γ
  have hbound : (Program.letIn p bound body).issues Γ = [] := by decide
  have hchoice : choice.issues Γ = [] := by decide
  have ht : t.issues Γ = [] := by decide
  have hwf : choice.ty.WellFormed := by
    refine .con .pair [i, .unit] rfl fun u hu => ?_
    simp only [List.mem_cons, List.not_mem_nil, or_false] at hu
    rcases hu with rfl | rfl
    · exact .con (.int 64) [] rfl (by simp)
    · exact .con .unit [] rfl (by simp)
  exact ⟨⟨rfl, hbind p bound body hbound⟩, hpair choice choice hchoice hchoice hwf hwf, hdrop t ht⟩

end Program

end ArrayFusion

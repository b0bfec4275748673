import ArrayFusion.Program.Binding
import ArrayFusion.Proofs.Program.Substitution
set_option autoImplicit false

/-!
Bindings that simplify as they are made do what plain ones do. Slots that are
substituted have the types and the values of the references that take their
place, as long as those who refer to a slot know its type.
-/

namespace ArrayFusion

def Pattern.Tags (p : Pattern) (r : Ref) : Prop :=
  ∀ t, p.slotTys[r.index]? = some t → r.ty = t

theorem Pattern.size_of_discards {p : Pattern} (h : p.discards) : p.size = 0 := beq_iff_eq.1 h

theorem Pattern.tags_of_le {p : Pattern} {r : Ref} (h : p.size ≤ r.index) : p.Tags r := by
  intro t ht
  rw [List.getElem?_eq_none (by rwa [length_slotTys])] at ht
  cases ht

/-- Whoever refers to a slot that a binder of the program makes knows its type. -/
def Program.Tagged {Op : Type} : Program Op → Prop
  | .exec _ _ | .ret _ | .compute _ | .alloc _ _ => True
  | .letIn p bound body => bound.Tagged ∧ body.Tagged ∧ body.AllFree p.Tags
  | .cond _ onTrue onFalse => onTrue.Tagged ∧ onFalse.Tagged

theorem Program.Tagged.reindex {Op : Type} {m : Reindexing} {t t' : Program Op} (h : t.Tagged)
    (ht : t.reindex m = some t') : t'.Tagged := by
  replace ht := reindex_eq_some_iff.1 ht
  induction ht with
  | exec _ | ret _ | compute _ | alloc _ => trivial
  | @letIn m p _ _ _ _ _ hb iha ihb =>
    refine ⟨iha h.1, ihb h.2.1, AllFree.reindex (reindex_eq_some_iff.2 hb) ?_⟩
    refine h.2.2.mono fun r hr r' hr' => ?_
    by_cases hlt : r.index < p.size
    · cases (Reindexing.sink_of_lt hlt).symm.trans hr'
      exact hr
    · obtain ⟨s, _, rfl⟩ := Reindexing.sink_eq_some hr' (Nat.not_lt.1 hlt)
      exact Pattern.tags_of_le (Nat.le_add_left ..)
  | cond _ _ _ iha ihb => exact ⟨iha h.1, ihb h.2⟩

section Substitute

variable {p : Pattern} {t : Tuple} {refs : List Ref}

theorem Pattern.slotTys_substitution? (h : p.substitution? t = some refs) :
    p.slotTys = refs.map Ref.ty := by
  induction p generalizing t refs with
  | wild u =>
    cases h
    rfl
  | slot u =>
    cases t with
    | ref r =>
      simp only [substitution?] at h
      split at h
      · rename_i hu
        cases h
        rw [hu]
        rfl
      · cases h
    | unit | pair _ _ => cases h
  | pair p q hp hq =>
    cases t with
    | pair a b =>
      obtain ⟨rs, hrs, h⟩ := Option.bind_eq_some_iff.1 h
      obtain ⟨ss, hss, h⟩ := Option.bind_eq_some_iff.1 h
      cases h
      rw [slotTys, hp hrs, hq hss, List.map_append]
    | unit | ref _ => cases h

theorem Pattern.forall_mem_substitution? {P : Ref → Prop} (h : p.substitution? t = some refs)
    (ht : t.AllFree P) : ∀ r ∈ refs, P r := by
  induction p generalizing t refs with
  | wild u =>
    cases h
    exact fun _ hr => (List.not_mem_nil hr).elim
  | slot u =>
    cases t with
    | ref r =>
      simp only [substitution?] at h
      split at h
      · cases h
        exact fun s hs => List.mem_singleton.1 hs ▸ ht
      · cases h
    | unit | pair _ _ => cases h
  | pair p q hp hq =>
    cases t with
    | pair a b =>
      obtain ⟨rs, hrs, h⟩ := Option.bind_eq_some_iff.1 h
      obtain ⟨ss, hss, h⟩ := Option.bind_eq_some_iff.1 h
      cases h
      intro r hr
      rcases List.mem_append.1 hr with hr | hr
      · exact hq hss ht.2 r hr
      · exact hp hrs ht.1 r hr
    | unit | ref _ => cases h

theorem Pattern.slots_substitution? {env : Stack} (h : p.substitution? t = some refs)
    {v : Value} (hv : t.value env = .ok v) {vs : Stack} (hs : p.slots v = .ok vs) :
    vs.map some = refs.map fun r => env[r.index]? := by
  induction p generalizing t refs v vs with
  | wild u =>
    cases h
    cases hs
    rfl
  | slot u =>
    cases hs
    cases t with
    | ref r =>
      simp only [substitution?] at h
      split at h
      · cases h
        simp only [Tuple.value, Stack.lookup] at hv
        cases hr : env[r.index]? <;> rw [hr] at hv <;> cases hv
        simp [hr]
      · cases h
    | unit | pair _ _ => cases h
  | pair p q hp hq =>
    cases t with
    | pair a b =>
      obtain ⟨rs, hrs, h⟩ := Option.bind_eq_some_iff.1 h
      obtain ⟨ss, hss, h⟩ := Option.bind_eq_some_iff.1 h
      cases h
      obtain ⟨va, hva, hv⟩ := bind_eq_ok.1 hv
      obtain ⟨vb, hvb, hv⟩ := bind_eq_ok.1 hv
      cases hv
      obtain ⟨l, r, hl, hr, rfl⟩ := slots_pair.1 hs
      rw [List.map_append, List.map_append, hp hrs hva hl, hq hss hvb hr]
    | unit | ref _ => cases h

theorem Reindexing.substitute_fits {env vs : Stack} (hty : p.slotTys = refs.map Ref.ty)
    (hvs : vs.map some = refs.map fun r => env[r.index]?) {r : Ref} (hr : p.Tags r) :
    (Reindexing.substitute refs).Fits False (vs ++ env) env r := by
  have hlen : vs.length = refs.length := by
    have := congrArg List.length hvs
    rwa [List.length_map, List.length_map] at this
  intro r' hr'
  unfold substitute at hr'
  cases hs : refs[r.index]? with
  | some s =>
    rw [hs] at hr'
    cases hr'
    have hlt : r.index < vs.length := hlen ▸ (List.getElem?_eq_some_iff.1 hs).1
    refine ⟨(hr r'.ty (by rw [hty, List.getElem?_map, hs] ; rfl)).symm, fun v hv => ?_, False.elim⟩
    rw [List.getElem?_append_left hlt] at hv
    have hget := congrArg (·[r.index]?) hvs
    simp only [List.getElem?_map, hv, hs, Option.map_some, Option.some.injEq] at hget
    exact hget.symm
  | none =>
    rw [hs] at hr'
    cases hr'
    have hle : vs.length ≤ r.index := hlen ▸ List.getElem?_eq_none_iff.1 hs
    refine ⟨rfl, fun v hv => ?_, False.elim⟩
    rwa [List.getElem?_append_right hle, hlen] at hv

end Substitute

theorem Reindexing.weaken_fits {faults : Prop} {env vs : Stack} {n : Nat} (hn : vs.length = n)
    {r : Ref} (hr : faults → (env[r.index]?).isSome) :
    (Reindexing.weaken n).Fits faults env (vs ++ env) r := by
  rintro _ ⟨⟩
  refine ⟨rfl, fun v hv => ?_, hr⟩
  rw [Ref.index_shifted, List.getElem?_append_right (by omega), hn, Nat.add_sub_cancel]
  exact hv

namespace Program

def lifted {Op : Type} (above known : Nat) (t : Program Op) : Program Op :=
  t.rename (lift above known) (total_lift above known)

theorem reindex_lift {Op : Type} (above known : Nat) (t : Program Op) :
    t.reindex (lift above known) = some (t.lifted above known) :=
  reindex_eq_rename (total_lift above known) t

def float {Op : Type} (p q : Pattern) (a b body : Program Op) : Program Op :=
  .letIn q a (.letIn p b (body.lifted q.size p.size))

section Shape

variable {Op : Type} {P : Ref → Prop} {p q : Pattern} {a b bound body : Program Op}

theorem AllFree.float (h : (Program.letIn p (.letIn q a b) body).AllFree P) :
    (float p q a b body).AllFree P := by
  obtain ⟨⟨ha, hb⟩, hbody⟩ := h
  refine ⟨ha, hb, AllFree.reindex (reindex_lift _ _ body) (hbody.mono fun r hr r' hr' => ?_)⟩
  intro hle _
  by_cases hn : p.size ≤ r.index
  · obtain ⟨s, hs, rfl⟩ := Reindexing.sink_eq_some hr' hn
    cases hs
    rw [Ref.lowered_shifted, Ref.lowered_shifted]
    exact hr hn
  · cases (Reindexing.sink_of_lt (Nat.not_le.1 hn)).symm.trans hr'
    exact (hn hle).elim

theorem Tagged.float (h : (Program.letIn p (.letIn q a b) body).Tagged) :
    (float p q a b body).Tagged := by
  obtain ⟨⟨ha, hb, hq⟩, hbody, hp⟩ := h
  have hlift := reindex_lift q.size p.size body
  refine ⟨ha, ⟨hb, hbody.reindex hlift, ?_⟩, hq, ?_⟩
  · refine AllFree.reindex hlift (hp.mono fun r hr r' hr' => ?_)
    by_cases hn : p.size ≤ r.index
    · obtain ⟨s, _, rfl⟩ := Reindexing.sink_eq_some hr' hn
      exact Pattern.tags_of_le (Nat.le_add_left ..)
    · cases (Reindexing.sink_of_lt (Nat.not_le.1 hn)).symm.trans hr'
      exact hr
  · -- What the body sees outside of `p` lies below the slots of `q`.
    refine AllFree.reindex hlift (hp.mono fun r _ r' hr' hle => Pattern.tags_of_le ?_)
    by_cases hn : p.size ≤ r.index
    · obtain ⟨s, hs, rfl⟩ := Reindexing.sink_eq_some hr' hn
      cases hs
      rw [Ref.lowered_shifted]
      exact Nat.le_add_left ..
    · cases (Reindexing.sink_of_lt (Nat.not_le.1 hn)).symm.trans hr'
      exact (hn hle).elim

theorem AllFree.letBind (h : (Program.letIn p bound body).AllFree P) :
    (letBind p bound body).AllFree P := by
  induction bound generalizing p body P with
  | exec _ _ | compute _ | alloc _ _ | cond _ _ _ _ _ => exact h
  | letIn q a b iha ihb =>
    obtain ⟨ha, hrest⟩ := h.float
    rw [Program.letBind]
    exact iha ⟨ha, ihb hrest⟩
  | ret t =>
    obtain ⟨ht, hbody⟩ := h
    rw [Program.letBind]
    split
    · rename_i hd
      have hp : p.size = 0 := Pattern.size_of_discards (Bool.and_eq_true_iff.1 hd).1
      refine hbody.mono fun r hr => ?_
      rw [hp] at hr
      exact hr (Nat.zero_le _)
    · split
      · rename_i refs hs
        refine AllFree.reindex (reindex_eq_rename _ body) (hbody.mono fun r hr r' hr' => ?_)
        unfold Reindexing.substitute at hr'
        split at hr'
        · rename_i s hmem
          cases hr'
          exact Pattern.forall_mem_substitution? hs ht _ (List.mem_of_getElem? hmem)
        · rename_i hnone
          cases hr'
          have hlen := Pattern.length_substitution? hs
          rw [hlen]
          exact hr (hlen ▸ List.getElem?_eq_none_iff.1 hnone)
      · exact ⟨ht, hbody⟩

theorem Tagged.letBind (h : (Program.letIn p bound body).Tagged) :
    (letBind p bound body).Tagged := by
  induction bound generalizing p body with
  | exec _ _ | compute _ | alloc _ _ | cond _ _ _ _ _ => exact h
  | letIn q a b iha ihb =>
    obtain ⟨ha, hrest, hq⟩ := h.float
    rw [Program.letBind]
    exact iha ⟨ha, ihb hrest, hq.letBind⟩
  | ret t =>
    obtain ⟨_, hbody, hp⟩ := h
    rw [Program.letBind]
    split
    · exact hbody
    · split
      · exact hbody.reindex (reindex_eq_rename _ body)
      · exact ⟨trivial, hbody, hp⟩

end Shape

section Run

variable {p q : Pattern} {a b bound body : Program Kernel} {env : Stack}

theorem float_kept (h : body.AllFree p.Tags) :
    Action.Kept False ((Program.letIn p (.letIn q a b) body).runIn env)
      ((float p q a b body).runIn env) := by
  have hlift := reindex_lift q.size p.size body
  simp only [float, runIn, bind_assoc]
  refine (Action.kept_refl _).bind fun v => Action.kept_ofExcept_bind fun qs hqs =>
    (Action.kept_refl _).bind fun w => Action.kept_ofExcept_bind fun ps hps => ?_
  refine runIn_kept hlift (h.mono fun r _ => ?_)
  exact Reindexing.Fits.sink (Pattern.length_slots hps) fun _ =>
    Reindexing.weaken_fits (Pattern.length_slots hqs) False.elim

theorem ret_kept {t : Tuple} {y : Action Heap Value}
    (h : ∀ v vs, t.value env = .ok v → p.slots v = .ok vs →
      Action.Kept False (body.runIn (vs ++ env)) y) :
    Action.Kept False ((Program.letIn p (.ret t) body).runIn env) y :=
  Action.kept_of_ofExcept_bind id fun v hv =>
    Action.kept_of_ofExcept_bind id fun vs hvs => h v vs hv hvs

theorem ret_discarded_kept {t : Tuple} (hp : p.discards) :
    Action.Kept False ((Program.letIn p (.ret t) body).runIn env) (body.runIn env) := by
  refine ret_kept fun v vs _ hvs => ?_
  have hlen : vs.length = 0 := (Pattern.length_slots hvs).trans (Pattern.size_of_discards hp)
  obtain rfl := List.length_eq_zero_iff.1 hlen
  exact Action.kept_refl _

theorem letBind_kept (h : (Program.letIn p bound body).Tagged) :
    Action.Kept False ((Program.letIn p bound body).runIn env)
      ((letBind p bound body).runIn env) := by
  induction bound generalizing p body env with
  | exec _ _ | compute _ | alloc _ _ | cond _ _ _ _ _ => exact Action.kept_refl _
  | letIn q a b iha ihb =>
    have hfloat := h.float
    have hinner : Action.Kept False ((float p q a b body).runIn env)
        ((Program.letIn q a (letBind p b (body.lifted q.size p.size))).runIn env) :=
      (Action.kept_refl _).bind fun v => (Action.kept_refl _).bind fun vs => ihb hfloat.2.1
    rw [letBind]
    exact (float_kept h.2.2).trans
      (hinner.trans (iha ⟨hfloat.1, hfloat.2.1.letBind, hfloat.2.2.letBind⟩))
  | ret t =>
    rw [letBind]
    split
    · rename_i hd
      exact ret_discarded_kept (Bool.and_eq_true_iff.1 hd).1
    · split
      · rename_i refs hs
        refine ret_kept fun v vs hv hvs => runIn_kept (reindex_eq_rename _ body) ?_
        refine h.2.2.mono fun r hr => ?_
        exact Reindexing.substitute_fits (Pattern.slotTys_substitution? hs)
          (Pattern.slots_substitution? hs hv hvs) hr
      · exact Action.kept_refl _

end Run

/-- A run of a plain binding that ends well is one of the simplified binding as
well, with the same value and the same heap. -/
theorem run_letBind (p : Pattern) (bound body : Program Kernel)
    (h : (Program.letIn p bound body).Tagged) (m m' : Machine) (v : Value)
    (hrun : (Program.letIn p bound body).run m = .ok v m') :
    (letBind p bound body).run m = .ok v m' := by
  obtain ⟨env, heap⟩ := m
  obtain ⟨heap', rfl, hin⟩ := run_eq_ok_iff.1 hrun
  exact run_eq_ok_iff.2 ⟨heap', rfl, (letBind_kept h).eq_ok hin⟩

/-- A literal bound by way of another slot, a discarded part of the pattern beside it. -/
theorem run_letBind_nested :
    let i : Ty := .int 64
    let p : Pattern := .pair (.wild i) (.slot i)
    let literal : Program Kernel := .compute (.const (.int 2))
    let bound : Program Kernel :=
      .letIn (.slot i) literal (.ret (.pair (.ref ⟨0, i⟩) (.ref ⟨0, i⟩)))
    let body : Program Kernel := .ret (.pair (.ref ⟨0, i⟩) (.ref ⟨1, i⟩))
    let m : Machine := ⟨[.scalar (.int 5)], .empty⟩
    let v : Value := .pair (.scalar (.int 2)) (.scalar (.int 5))
    letBind p bound body =
        .letIn (.slot i) literal (.ret (.pair (.ref ⟨0, i⟩) (.ref ⟨1, i⟩))) ∧
      (Program.letIn p bound body).Tagged ∧ (Program.letIn p bound body).run m = .ok v m ∧
      (letBind p bound body).run m = .ok v m := by
  intro i p literal bound body m v
  have htag : (Program.letIn p bound body).Tagged := by
    refine ⟨⟨trivial, trivial, ?_, ?_⟩, trivial, ?_, ?_⟩
    · rintro _ ⟨⟩
      rfl
    · rintro _ ⟨⟩
      rfl
    · rintro _ ⟨⟩
      rfl
    · rintro _ ⟨⟩
  exact ⟨rfl, htag, rfl, run_letBind p bound body htag m m v rfl⟩

end Program

end ArrayFusion

import ArrayFusion.Proofs.Pattern.Rebuilding
import ArrayFusion.Proofs.Program.Binding
set_option autoImplicit false

namespace ArrayFusion

namespace Program

variable {env : Stack}

theorem rebuilt_kept {p q : Pattern} {m : Reindexing} {body body' : Program Kernel}
    (hm : Reindexing.underRebuilt (.weaken 0) p q = .ok m) (hb : body.reindex m = some body')
    (bound : Program Kernel) :
    Action.Kept False ((Program.letIn p bound body).runIn env)
      ((Program.letIn q bound body').runIn env) := by
  obtain ⟨slots, hslots, hm⟩ := bind_eq_ok.1 hm
  cases hm
  refine (Action.kept_refl _).bind fun v => Action.kept_of_ofExcept_bind id fun vs hvs => ?_
  obtain ⟨ws, hws, hmoved⟩ := Pattern.exists_slots_slotMap hslots hvs
  have hlen : vs.length = slots.length :=
    (Pattern.length_slots hvs).trans (Pattern.length_slotMap hslots).symm
  rw [hws]
  exact runIn_kept hb (AllFree.of_forall
    (Reindexing.rebuild_fits hlen (Pattern.length_slots hws) hmoved) body)

theorem sweep_kept (todo kept : Nat) (p : Pattern) (bound body : Program Kernel) :
    Action.Kept False ((Program.letIn p bound body).runIn env)
      ((Program.letIn (sweep todo kept p body).1 bound (sweep todo kept p body).2).runIn env) := by
  induction todo generalizing kept p body with
  | zero => exact Action.kept_refl _
  | succ todo ih =>
    unfold sweep
    split
    · exact Action.kept_refl _
    · rename_i q _
      split
      · exact ih (kept + 1) p body
      · rename_i m hm
        split
        · rename_i body' hb
          exact (rebuilt_kept hm hb bound).trans (ih kept q body')
        · exact ih (kept + 1) p body

theorem dropUnused_kept (t : Program Kernel) :
    Action.Kept False (t.runIn env) (t.dropUnused.runIn env) := by
  cases t with
  | exec _ _ | ret _ | compute _ | alloc _ _ | cond _ _ _ => exact Action.kept_refl _
  | letIn p bound body =>
    have hsweep := @sweep_kept env p.size 0 p bound body
    rw [dropUnused]
    split
    rename_i q body' hq
    rw [hq] at hsweep
    split
    · rename_i hd
      obtain ⟨hdiscards, hret⟩ := Bool.and_eq_true_iff.1 hd
      cases bound with
      | ret t => exact hsweep.trans (ret_discarded_kept hdiscards)
      | exec _ _ | compute _ | alloc _ _ | letIn _ _ _ | cond _ _ _ => cases hret
    · exact hsweep

/-- A run that ends well is one of the program without its unused slots as well, with
the same value and the same heap. -/
theorem run_dropUnused (t : Program Kernel) (m m' : Machine) (v : Value)
    (hrun : t.run m = .ok v m') : t.dropUnused.run m = .ok v m' := by
  obtain ⟨env, heap⟩ := m
  obtain ⟨heap', rfl, hin⟩ := run_eq_ok_iff.1 hrun
  exact run_eq_ok_iff.2 ⟨heap', rfl, (dropUnused_kept t).eq_ok hin⟩

/-- The outer two of three slots go away, from under a binder of the body as well. -/
theorem run_dropUnused_middle :
    let i : Ty := .int 64
    let bound : Program Kernel :=
      .ret (.pair (.ref ⟨0, i⟩) (.pair (.ref ⟨1, .bool⟩) (.ref ⟨0, i⟩)))
    let t : Program Kernel :=
      .letIn (.pair (.slot i) (.pair (.slot .bool) (.slot i))) bound
        (.letIn (.slot i) (.ret (.ref ⟨3, i⟩)) (.ret (.pair (.ref ⟨2, .bool⟩) (.ref ⟨0, i⟩))))
    let m : Machine := ⟨[.scalar (.int 5), .scalar (.bool true)], .empty⟩
    let v : Value := .pair (.scalar (.bool true)) (.scalar (.int 5))
    t.dropUnused =
        .letIn (.pair (.wild i) (.pair (.slot .bool) (.wild i))) bound
          (.letIn (.slot i) (.ret (.ref ⟨1, i⟩)) (.ret (.pair (.ref ⟨1, .bool⟩) (.ref ⟨0, i⟩)))) ∧
      t.run m = .ok v m ∧ t.dropUnused.run m = .ok v m := by
  intro i bound t m v
  exact ⟨rfl, rfl, run_dropUnused t m m v rfl⟩

end Program

end ArrayFusion

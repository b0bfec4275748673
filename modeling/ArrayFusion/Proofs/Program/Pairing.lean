import ArrayFusion.Proofs.Pattern.Destructuring
import ArrayFusion.Proofs.Program.Binding
set_option autoImplicit false

/-!
The pair of two programs does what the first one does and then what the second one
does. The bindings of the second run on top of those of the first, of which they do not
know, and the result of the first is seen from under those of the second.
-/

namespace ArrayFusion

namespace Program

theorem value_resultTuple {t : Ty} {v : Value} (h : t.Splits v) {vs : Stack}
    (hvs : (Pattern.ofTy t).slots v = .ok vs) (env : Stack) :
    (resultTuple t).value (vs ++ env) = .ok v := by
  obtain ⟨u, hu⟩ := Pattern.exists_tupleUnder_ofTy t 0
  have hres : resultTuple t = u := by rw [resultTuple, Pattern.tuple?, hu] ; rfl
  rw [hres]
  exact Pattern.value_tupleUnder_ofTy h hvs hu (rfl : [].length = 0) env

section Pair

/- The second program runs on `outer`, where `under` has been pushed by its own
bindings. In the pair the slots `as` of the first program lie between the two. -/
variable {under as outer : Stack} {above known : Nat} {heap heap₁ heap₂ : Heap} {v w : Value}

theorem runIn_lifted (ha : as.length = above) (hu : under.length = known) {t : Program Kernel}
    (h : t.runIn (under ++ outer) heap = .ok v heap₁) :
    (t.lifted above known).runIn (under ++ (as ++ outer)) heap = .ok v heap₁ := by
  have hkept : Action.Kept False (t.runIn (under ++ outer))
      ((t.lifted above known).runIn (under ++ (as ++ outer))) :=
    runIn_kept (reindex_lift above known t) (AllFree.of_forall (fun r =>
      Reindexing.Fits.sink hu fun _ => Reindexing.weaken_fits ha False.elim) t)
  exact hkept.eq_ok h

theorem value_rename {t : Tuple} {m : Reindexing} (hm : m.Total) {env env' : Stack}
    (hfit : ∀ r, m.Fits False env env' r) (h : t.value env = .ok v) :
    (t.rename m hm).value env' = .ok v :=
  (Tuple.value_coupled (Tuple.image_rename hm t) (Tuple.AllFree.of_forall hfit t)).eq_ok h

variable {first : Tuple}

theorem runIn_pairAfter_ret (ha : as.length = above) (hu : under.length = known)
    (hv : first.value (as ++ outer) = .ok v) {t : Tuple} (hw : t.value (under ++ outer) = .ok w) :
    (pairAfter first above known (.ret t : Program Kernel)).runIn (under ++ (as ++ outer)) heap =
      .ok (.pair v w) heap := by
  refine runIn_ret_eq_ok_iff.2 ⟨bind_eq_ok.2 ⟨v, ?_, bind_eq_ok.2 ⟨w, ?_, rfl⟩⟩, rfl⟩
  · exact value_rename _ (fun r => Reindexing.weaken_fits hu False.elim) hv
  · exact value_rename _ (fun r => Reindexing.Fits.sink hu fun _ =>
      Reindexing.weaken_fits ha False.elim) hw

theorem runIn_pairAfter {second : Program Kernel} (ha : as.length = above)
    (hu : under.length = known) (hv : first.value (as ++ outer) = .ok v)
    (hw : second.runIn (under ++ outer) heap₁ = .ok w heap₂) (hs : second.ty.Splits w) :
    (pairAfter first above known second).runIn (under ++ (as ++ outer)) heap₁ =
      .ok (.pair v w) heap₂ := by
  induction second generalizing under known heap₁ with
  | letIn p bound body _ ih =>
    obtain ⟨x, middle, vs, hx, hvs, hbody⟩ := runIn_letIn_eq_ok_iff.1 hw
    have hlen : (vs ++ under).length = known + p.size := by
      rw [List.length_append, Pattern.length_slots hvs, hu, Nat.add_comm]
    refine runIn_letIn_eq_ok_iff.2 ⟨x, middle, vs, runIn_lifted ha hu hx, hvs, ?_⟩
    rw [← List.append_assoc] at hbody ⊢
    exact ih hlen hbody hs
  | ret t =>
    obtain ⟨ht, rfl⟩ := runIn_ret_eq_ok_iff.1 hw
    exact runIn_pairAfter_ret ha hu hv ht
  | exec _ _ | compute _ | alloc _ _ | cond _ _ _ _ _ =>
    -- The result is bound to a pattern of its type and returned from there.
    obtain ⟨vs, hvs⟩ := Pattern.exists_slots_ofTy hs
    have hlen := Pattern.length_slots hvs
    have hres := value_resultTuple hs hvs (under ++ outer)
    refine runIn_letIn_eq_ok_iff.2 ⟨w, heap₂, vs, runIn_lifted ha hu hw, hvs, ?_⟩
    rw [← List.append_assoc] at hres ⊢
    exact runIn_pairAfter_ret ha (by rw [List.length_append, hlen, hu, Nat.add_comm]) hv hres

theorem runIn_pairFrom {first second : Program Kernel} (ha : as.length = above)
    (hv : first.runIn (as ++ outer) heap = .ok v heap₁) (hsv : first.ty.Splits v)
    (hw : second.runIn outer heap₁ = .ok w heap₂) (hsw : second.ty.Splits w) :
    (pairFrom second above first).runIn (as ++ outer) heap = .ok (.pair v w) heap₂ := by
  induction first generalizing as above heap with
  | letIn p bound body _ ih =>
    obtain ⟨x, middle, vs, hx, hvs, hbody⟩ := runIn_letIn_eq_ok_iff.1 hv
    have hlen : (vs ++ as).length = above + p.size := by
      rw [List.length_append, Pattern.length_slots hvs, ha, Nat.add_comm]
    refine runIn_letIn_eq_ok_iff.2 ⟨x, middle, vs, hx, hvs, ?_⟩
    rw [← List.append_assoc] at hbody ⊢
    exact ih hlen hbody hsv
  | ret t =>
    obtain ⟨ht, rfl⟩ := runIn_ret_eq_ok_iff.1 hv
    exact runIn_pairAfter ha (rfl : [].length = 0) ht hw hsw
  | exec _ _ | compute _ | alloc _ _ | cond _ _ _ _ _ =>
    obtain ⟨vs, hvs⟩ := Pattern.exists_slots_ofTy hsv
    have hlen := Pattern.length_slots hvs
    have hres := value_resultTuple hsv hvs (as ++ outer)
    refine runIn_letIn_eq_ok_iff.2 ⟨v, heap₁, vs, hv, hvs, ?_⟩
    rw [← List.append_assoc] at hres ⊢
    exact runIn_pairAfter (by rw [List.length_append, hlen, ha, Nat.add_comm])
      (rfl : [].length = 0) hres hw hsw

end Pair

/-- The pair runs the first program and then the second one, each in the environment of
the pair, and returns the values of both. -/
theorem run_pair (first second : Program Kernel) (env : Stack) (heap : Heap) (m₁ m₂ : Machine)
    (v w : Value) (hv : first.run ⟨env, heap⟩ = .ok v m₁)
    (hw : second.run ⟨env, m₁.heap⟩ = .ok w m₂) (hsv : first.ty.Splits v)
    (hsw : second.ty.Splits w) :
    (pair first second).run ⟨env, heap⟩ = .ok (.pair v w) ⟨env, m₂.heap⟩ := by
  obtain ⟨heap₁, rfl, hinv⟩ := run_eq_ok_iff.1 hv
  obtain ⟨heap₂, rfl, hinw⟩ := run_eq_ok_iff.1 hw
  exact run_eq_ok_iff.2
    ⟨heap₂, rfl, runIn_pairFrom (rfl : [].length = 0) hinv hsv hinw hsw⟩

/-- Two programs with a binding each that end in a conditional. The test of the second
one lies four slots down in the pair. -/
theorem run_pair_conditionals :
    let i : Ty := .int 64
    let a : Ty := .array 0 i
    let choice (test : Nat) (t : Ty) : Program Kernel :=
      .cond ⟨test, .bool⟩ (.ret (.pair (.ref ⟨0, t⟩) .unit)) (.ret (.pair (.ref ⟨0, t⟩) .unit))
    let first : Program Kernel := .letIn (.slot a) (.alloc i []) (choice 1 a)
    let second : Program Kernel := .letIn (.slot i) (.compute (.const (.int 2))) (choice 1 i)
    let env : Stack := [.scalar (.bool true)]
    let heap : Heap := ⟨[some ⟨[], [.int 0]⟩]⟩
    let v : Value := .pair (.buffer ⟨0⟩) .unit
    let w : Value := .pair (.scalar (.int 2)) .unit
    pair first second =
        .letIn (.slot a) (.alloc i [])
          (.letIn (.pair (.slot a) (.wild .unit)) (choice 1 a)
            (.letIn (.slot i) (.compute (.const (.int 2)))
              (.letIn (.pair (.slot i) (.wild .unit)) (choice 3 i)
                (.ret (.pair (.pair (.ref ⟨2, a⟩) .unit) (.pair (.ref ⟨0, i⟩) .unit)))))) ∧
      first.run ⟨env, .empty⟩ = .ok v ⟨env, heap⟩ ∧ second.run ⟨env, heap⟩ = .ok w ⟨env, heap⟩ ∧
      first.ty.Splits v ∧ second.ty.Splits w ∧
      (pair first second).run ⟨env, .empty⟩ = .ok (.pair v w) ⟨env, heap⟩ := by
  intro i a choice first second env heap v w
  have hsv : first.ty.Splits v := ⟨_, _, rfl, trivial, rfl⟩
  have hsw : second.ty.Splits w := ⟨_, _, rfl, trivial, rfl⟩
  exact ⟨rfl, rfl, rfl, hsv, hsw,
    run_pair first second env .empty ⟨env, heap⟩ ⟨env, heap⟩ v w rfl rfl hsv hsw⟩

end Program

end ArrayFusion

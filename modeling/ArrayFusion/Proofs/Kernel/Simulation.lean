import ArrayFusion.Kernel.Execute
import ArrayFusion.Proofs.Heap.Agreement
import ArrayFusion.Proofs.Kernel.Arguments
set_option autoImplicit false

namespace ArrayFusion

theorem Expr.eval_closed (h g : Heap) (e : Expr) : e.eval [] g = e.eval [] h := by
  induction e with
  | var _ | const _ | nil | param _ _ => rfl
  | letIn p bound body hb hbody => rw [eval, eval, hb, hbody]
  | unary op e ih | fst e ih | snd e ih => rw [eval, eval, ih]
  | binary op a b ha hb | pair a b ha hb => rw [eval, eval, ha, hb]
  | cond test onTrue onFalse ht hf hc => rw [eval, eval, ht, hf, hc]
  | read r e ih =>
    have hl : Stack.lookup [] r = .error (.outOfRange r.index 0) := by simp [Stack.lookup]
    rw [eval, eval, hl]
    rfl

theorem Fn.applyIn_closed (h g : Heap) (f : Fn) (vs : List Value) :
    f.applyIn [] g vs = f.applyIn [] h vs := by
  induction f generalizing vs with
  | lam p f ih => cases vs <;> simp [applyIn, ih]
  | body e => cases vs <;> simp [applyIn, Expr.eval_closed h g]

namespace Kernel

theorem element_closed (h g : Heap) (f : Fn) (xs : List Literal) :
    element f g xs = element f h xs := by
  simp only [element, Fn.apply, Fn.applyIn_closed h g]

open Heap

variable {ρ : Renaming} {known : BufferId → Nat → Prop} {output : BufferId}
  {elementAt elementAt' : Heap → Nat → Except Fault Literal}

theorem fill_coupled (ho : ρ.dom output)
    (he : ∀ h g, Agrees ρ known h g → ∀ i, elementAt h i = elementAt' g i) (todo i : Nat) :
    Action.Coupled True (Agrees ρ fun c j => known c j ∨ c = output ∧ j < i)
      (fun _ _ => Agrees ρ fun c j => known c j ∨ c = output ∧ j < i + todo) (Agrees ρ known)
      (fill output elementAt todo i) (fill (ρ.map output) elementAt' todo i) := by
  induction todo generalizing i with
  | zero => exact Action.coupled_pure fun h g ha => ha
  | succ todo ih =>
    let now := fun c j => known c j ∨ c = output ∧ j < i
    refine Action.Coupled.bind_eq (Action.coupled_observe_eq ?same ?broken) fun x =>
      Action.Coupled.bind ((Agrees.write_coupled now ho i x).mono ?pre ?post ?broken') fun _ _ =>
        (ih (i + 1)).mono (fun _ _ ha => ha) ?last (fun _ _ ha => ha)
    case broken => exact fun h g ha => ha.mono fun b _ j hj => .inl hj
    case same => exact fun h g ha => he h g (ha.mono fun b _ j hj => .inl hj) i
    case pre => exact fun h g ha => ha.1
    case broken' => exact fun h g ha => ha.mono fun b _ j hj => .inl hj
    case post =>
      refine fun _ _ h g ha => ha.mono fun b _ j hj => ?_
      rcases hj with hj | ⟨rfl, hj⟩
      · exact .inl (.inl hj)
      · by_cases hlt : j < i
        · exact .inl (.inr ⟨rfl, hlt⟩)
        · exact .inr ⟨rfl, by omega⟩
    case last =>
      refine fun _ _ h g ha => ha.mono fun b _ j hj => ?_
      rw [show i + 1 + todo = i + (todo + 1) by omega]
      exact hj

theorem agrees_beyond {h g : Heap} (ha : Agrees ρ known h g) {x : Buffer}
    (hx : h.find? output = some x) :
    Agrees ρ (fun c j => known c j ∨ c = output ∧ x.shape.volume ≤ j) h g := by
  intro c hc
  obtain ⟨x', y, hx', hy, hxy⟩ := ha c hc
  refine ⟨x', y, hx', hy, hxy.shape, hxy.length_left, hxy.length_right, fun j hj => ?_⟩
  rcases hj with hj | ⟨rfl, hj⟩
  · exact hxy.data j hj
  · cases hx.symm.trans hx'
    have hl := hxy.length_left
    have hr := hxy.length_right
    rw [List.getElem?_eq_none (by omega), List.getElem?_eq_none (by omega)]

theorem fill_whole_coupled (ho : ρ.dom output)
    (he : ∀ h g, Agrees ρ known h g → ∀ i, elementAt h i = elementAt' g i) (n : Nat) :
    Action.Coupled True
      (fun h g => Agrees ρ known h g ∧ ∃ x, h.find? output = some x ∧ x.shape.volume = n)
      (fun _ _ => Agrees ρ fun c j => known c j ∨ c = output) (Agrees ρ known)
      (fill output elementAt n 0) (fill (ρ.map output) elementAt' n 0) := by
  have hf := @fill_coupled ρ (fun c j => known c j ∨ c = output ∧ n ≤ j) output elementAt
    elementAt' ho (fun h g ha => he h g (ha.mono fun b _ j hj => .inl hj)) n 0
  refine hf.mono ?pre ?post ?broken
  case pre =>
    rintro h g ⟨ha, x, hx, rfl⟩
    refine (agrees_beyond ha hx).mono fun b _ j hj => ?_
    exact hj.resolve_right fun hj => Nat.not_lt_zero _ hj.2
  case post =>
    refine fun _ _ h g ha => ha.mono fun b _ j hj => ?_
    rcases hj with hj | rfl
    · exact .inl (.inl hj)
    · by_cases hlt : j < n
      · exact .inr ⟨rfl, by omega⟩
      · exact .inl (.inr ⟨rfl, by omega⟩)
  case broken => exact fun h g ha => ha.mono fun b _ j hj => .inl hj

theorem elementwise_coupled {bs : List BufferId} (hb : ∀ b ∈ bs, ρ.dom b) (ho : output ∈ bs)
    (he : ∀ h g, Agrees ρ known h g → ∀ i, elementAt h i = elementAt' g i) :
    Action.Coupled True (Agrees ρ known) (fun _ _ => Agrees ρ fun c j => known c j ∨ c = output)
      (Agrees ρ known)
      (do
        let n ← Action.observe (·.commonVolume bs)
        fill output elementAt n 0)
      (do
        let n ← Action.observe (·.commonVolume (bs.map ρ.map))
        fill (ρ.map output) elementAt' n 0) := by
  refine Action.Coupled.bind_eq (Action.coupled_observe_eq (fun h g ha =>
    (ha.commonVolume_eq hb).symm) fun _ _ ha => ha) fun n => ?_
  refine (fill_whole_coupled (hb _ ho) he n).mono ?_ (fun _ _ _ _ ha => ha) fun _ _ ha => ha
  rintro h g ⟨ha, hn⟩
  obtain ⟨x, _, hx, _⟩ := ha output (hb _ ho)
  exact ⟨ha, x, hx, volume_of_commonVolume hn ho hx⟩

theorem generate_coupled (ho : ρ.dom output)
    (he : ∀ h g, Agrees ρ known h g → ∀ i, elementAt h i = elementAt' g i) :
    Action.Coupled True (Agrees ρ known) (fun _ _ => Agrees ρ fun c j => known c j ∨ c = output)
      (Agrees ρ known)
      (do
        let b ← Action.observe (·.buffer output)
        fill output elementAt b.data.length 0)
      (do
        let b ← Action.observe (·.buffer (ρ.map output))
        fill (ρ.map output) elementAt' b.data.length 0) := by
  let mid := fun (x y : Buffer) h g => (Agrees ρ known h g ∧ h.find? output = some x) ∧
    x.data.length = x.shape.volume ∧ y.data.length = x.shape.volume
  have hobs : Action.Coupled True (Agrees ρ known) mid (Agrees ρ known)
      (Action.observe (·.buffer output)) (Action.observe (·.buffer (ρ.map output))) := by
    refine Action.coupled_observe (fun h g ha => ?_) fun _ _ ha => ha
    obtain ⟨x, y, hx, hy, hxy⟩ := ha output ho
    rw [buffer_of_find? hx, buffer_of_find? hy]
    exact ⟨⟨ha, hx⟩, hxy.length_left, hxy.length_right⟩
  refine hobs.bind fun x y h g hm => ?_
  obtain ⟨⟨ha, hx⟩, hlx, hly⟩ := hm
  rw [hlx, hly]
  exact fill_whole_coupled ho he x.shape.volume h g ⟨ha, x, hx, rfl⟩

section Elements

variable {h g : Heap} {x y : BufferId}

theorem mapAt_eq (ha : Agrees ρ known h g) (hx : ρ.dom x) (hk : ∀ i, known x i) (f : Fn) (i : Nat) :
    mapAt f x h i = mapAt f (ρ.map x) g i := by
  rw [mapAt, mapAt, ha.read_eq hx (hk i)]
  simp only [element_closed h g]

theorem zipAt_eq (ha : Agrees ρ known h g) (hx : ρ.dom x) (hy : ρ.dom y) (hkx : ∀ i, known x i)
    (hky : ∀ i, known y i) (f : Fn) (i : Nat) :
    zipAt f x y h i = zipAt f (ρ.map x) (ρ.map y) g i := by
  rw [zipAt, zipAt, ha.read_eq hx (hkx i), ha.read_eq hy (hky i)]
  simp only [element_closed h g]

theorem generateAt_eq (h g : Heap) (f : Fn) (i : Nat) : generateAt f h i = generateAt f g i :=
  element_closed g h f _

end Elements

theorem eq_array_of_output {k : Kernel} {t : Ty} (h : ⟨.output, t⟩ ∈ k.signature) :
    ∃ rank elem, t = .array rank elem := by
  cases k <;> simp [signature] at h <;> exact ⟨_, _, h⟩

theorem execute_coupled (k : Kernel) {args : List Actual} (hs : k.signature = signatureOf args)
    (hd : ∀ b ∈ Actual.buffers args, ρ.dom b)
    (hr : ∀ b t, Actual.input b t ∈ args → ∀ j, known b j) :
    Action.Coupled True (Agrees ρ known)
      (fun _ _ => Agrees ρ fun c j => known c j ∨ ∃ t, Actual.output c t ∈ args) (Agrees ρ known)
      (k.execute args) (k.execute (args.map (Actual.rename ρ.map))) := by
  have hc := Signature.check_eq_ok_iff.2 hs
  have hc' := Signature.check_eq_ok_iff.2 (hs.trans (Actual.signatureOf_rename ρ.map args).symm)
  unfold execute
  rw [hc, hc']
  cases takes_of_signature hs with
  | map rank a b f x y =>
    have hb : ∀ b ∈ [x, y], ρ.dom b := hd
    have hk := hr x _ (List.mem_cons_self ..)
    refine (elementwise_coupled hb (by simp) fun h g ha => mapAt_eq ha (hb x (by simp)) hk f).mono
      (fun _ _ ha => ha) ?_ (fun _ _ ha => ha)
    exact fun _ _ h g ha => ha.mono fun b _ j hj => hj.imp_right (by simp)
  | zipWith rank a b c f x y z =>
    have hb : ∀ b ∈ [x, y, z], ρ.dom b := hd
    have hkx := hr x _ (List.mem_cons_self ..)
    have hky := hr y _ (List.mem_cons_of_mem _ (List.mem_cons_self ..))
    refine (elementwise_coupled hb (by simp) fun h g ha =>
      zipAt_eq ha (hb x (by simp)) (hb y (by simp)) hkx hky f).mono
      (fun _ _ ha => ha) ?_ (fun _ _ ha => ha)
    exact fun _ _ h g ha => ha.mono fun b _ j hj => hj.imp_right (by simp)
  | generate rank a f x =>
    have hb : ∀ b ∈ [x], ρ.dom b := hd
    refine (generate_coupled (hb x (by simp)) fun h g _ => generateAt_eq h g f).mono
      (fun _ _ ha => ha) ?_ (fun _ _ ha => ha)
    exact fun _ _ h g ha => ha.mono fun b _ j hj => hj.imp_right (by simp)

end Kernel

end ArrayFusion

import ArrayFusion.Program.Run
import ArrayFusion.Proofs.Coupling
import ArrayFusion.Proofs.Outcome
set_option autoImplicit false

/-!
Programs only read their environment. What one pushes is gone when it is done, so
the environment is a parameter of a run on the heap alone.
-/

namespace ArrayFusion

theorem Stack.truncate_append (vs env : Stack) :
    Stack.truncate (vs ++ env) env.length = env := by
  rw [truncate, List.length_append, Nat.add_sub_cancel, List.drop_left]

theorem Stack.lookup_eq_ok_iff {env : Stack} {r : Ref} {v : Value} :
    env.lookup r = .ok v ↔ env[r.index]? = some v := by
  unfold lookup
  cases env[r.index]? <;> simp

/-- The values of the slots of a pattern, topmost first. -/
def Pattern.slots : Pattern → Value → Except Fault Stack
  | .wild _, _ => .ok []
  | .slot _, v => .ok [v]
  | .pair p q, .pair a b => do
    let l ← p.slots a
    let r ← q.slots b
    .ok (r ++ l)
  | p, v => .error (.invariant (.cannotBind v p))

namespace Pattern

theorem slots_pair {p q : Pattern} {a b : Value} {vs : Stack} :
    (Pattern.pair p q).slots (.pair a b) = .ok vs ↔
      ∃ l r, p.slots a = .ok l ∧ q.slots b = .ok r ∧ vs = r ++ l := by
  constructor
  · intro h
    obtain ⟨l, hl, h⟩ := bind_eq_ok.1 h
    obtain ⟨r, hr, h⟩ := bind_eq_ok.1 h
    cases h
    exact ⟨l, r, hl, hr, rfl⟩
  · rintro ⟨l, r, hl, hr, rfl⟩
    exact bind_eq_ok.2 ⟨l, hl, bind_eq_ok.2 ⟨r, hr, rfl⟩⟩

theorem length_slots {p : Pattern} {v : Value} {vs : Stack} (h : p.slots v = .ok vs) :
    vs.length = p.size := by
  induction p generalizing v vs with
  | wild t => cases h ; rfl
  | slot t => cases h ; rfl
  | pair p q hp hq =>
    cases v with
    | pair a b =>
      obtain ⟨l, r, hl, hr, rfl⟩ := slots_pair.1 h
      rw [List.length_append, hp hl, hq hr, size, Nat.add_comm]
    | scalar _ | buffer _ | unit => cases h

theorem bind_eq (p : Pattern) (v : Value) (env : Stack) :
    match p.slots v with
    | .ok vs => p.bind v env = .ok () (vs ++ env)
    | .error e => ∃ env', p.bind v env = .error e env' := by
  induction p generalizing v env with
  | wild t => exact rfl
  | slot t => exact rfl
  | pair p q hp hq =>
    cases v with
    | pair a b =>
      have hp := hp a env
      cases hl : p.slots a with
      | error e =>
        rw [hl] at hp
        obtain ⟨env', hp⟩ := hp
        have hs : (Pattern.pair p q).slots (.pair a b) = .error e := by rw [slots, hl] ; rfl
        rw [hs]
        exact ⟨env', Action.bind_eq_error_iff.2 (.inl hp)⟩
      | ok l =>
        rw [hl] at hp
        have hq := hq b (l ++ env)
        cases hr : q.slots b with
        | error e =>
          rw [hr] at hq
          obtain ⟨env', hq⟩ := hq
          have hs : (Pattern.pair p q).slots (.pair a b) = .error e := by rw [slots, hl, hr] ; rfl
          rw [hs]
          exact ⟨env', Action.bind_eq_error_iff.2 (.inr ⟨(), l ++ env, hp, hq⟩)⟩
        | ok r =>
          rw [hr] at hq
          rw [slots_pair.2 ⟨l, r, hl, hr, rfl⟩]
          refine (Action.bind_eq_ok_iff.2 ⟨(), l ++ env, hp, hq⟩).trans ?_
          rw [List.append_assoc]
    | scalar _ | buffer _ | unit => exact ⟨env, rfl⟩

end Pattern

namespace Program

variable {Op : Type} [Executable Op]

def runIn (env : Stack) : Program Op → Action Heap Value
  | .exec op args => do
    let actuals ← Action.ofExcept (resolveAll env args)
    Executable.execute op actuals
    pure .unit
  | .ret t => Action.ofExcept (t.value env)
  | .compute e => Action.observe fun h => Action.answer (e.eval env h) []
  | .alloc elem shape => do
    let extents ← Action.ofExcept (env.extents shape)
    let b ← Heap.alloc elem extents
    pure (.buffer b)
  | .letIn p bound body => do
    let v ← bound.runIn env
    let vs ← Action.ofExcept (p.slots v)
    body.runIn (vs ++ env)
  | .cond test onTrue onFalse => do
    let v ← Action.ofExcept (env.lookup test)
    match ← Action.ofExcept v.asLiteral with
    | .bool true => onTrue.runIn env
    | .bool false => onFalse.runIn env
    | x => throw (.invariant (.notCondition x))

variable {env : Stack} {heap heap' : Heap} {v : Value}

theorem runIn_ret_eq_ok_iff {t : Tuple} :
    (Program.ret t : Program Op).runIn env heap = .ok v heap' ↔
      t.value env = .ok v ∧ heap = heap' := Action.ofExcept_eq_ok_iff

theorem runIn_letIn_eq_ok_iff {p : Pattern} {bound body : Program Op} :
    (Program.letIn p bound body).runIn env heap = .ok v heap' ↔
      ∃ x middle vs, bound.runIn env heap = .ok x middle ∧ p.slots x = .ok vs ∧
        body.runIn (vs ++ env) middle = .ok v heap' := by
  constructor
  · intro h
    obtain ⟨x, middle, hx, h⟩ := Action.bind_eq_ok_iff.1 h
    obtain ⟨vs, _, hof, h⟩ := Action.bind_eq_ok_iff.1 h
    obtain ⟨hvs, rfl⟩ := Action.ofExcept_eq_ok_iff.1 hof
    exact ⟨x, middle, vs, hx, hvs, h⟩
  · rintro ⟨x, middle, vs, hx, hvs, h⟩
    exact Action.bind_eq_ok_iff.2 ⟨x, middle, hx,
      Action.bind_eq_ok_iff.2 ⟨vs, middle, Action.ofExcept_eq_ok_iff.2 ⟨hvs, rfl⟩, h⟩⟩

end Program

namespace Machine

variable {α β : Type}

/-- The first computation has the effect of the second one on the heap, and keeps
the environment unless there is a fault. -/
def Lifts (env : Stack) (x : Action Machine α) (y : Action Heap α) : Prop :=
  Action.Coupled True (fun m h => m = ⟨env, h⟩) (fun a b m h => a = b ∧ m = ⟨env, h⟩)
    (fun m h => m.heap = h) x y

variable {env : Stack}

theorem Lifts.bind {x : Action Machine α} {y : Action Heap α} {f : α → Action Machine β}
    {g : α → Action Heap β} (hx : Lifts env x y) (hf : ∀ a, Lifts env (f a) (g a)) :
    Lifts env (x >>= f) (y >>= g) := Action.Coupled.bind_eq hx hf

theorem lifts_observe {f : Machine → Except Fault α} {g : Heap → Except Fault α}
    (h : ∀ heap, f ⟨env, heap⟩ = g heap) : Lifts env (Action.observe f) (Action.observe g) := by
  refine (Action.coupled_observe_eq ?_ ?_).mono (fun _ _ hm => hm) ?_ (fun _ _ hm => hm)
  · rintro m heap rfl
    exact h heap
  · rintro m heap rfl
    rfl
  · exact fun a b m heap hm => ⟨hm.1, hm.2.1⟩

theorem lifts_onHeap (x : Action Heap α) : Lifts env (onHeap x) x := by
  rintro m h rfl
  unfold onHeap Action.onPart
  cases x h <;> simp

theorem lifts_throw (e : Fault) : Lifts env (throw e : Action Machine α) (throw e) := by
  rintro m h rfl
  exact fun _ => ⟨rfl, rfl⟩

theorem lifts_pure (a : α) : Lifts env (pure a) (pure a) :=
  Action.coupled_pure fun _ _ hm => ⟨rfl, hm⟩

theorem Lifts.onPart_eq {x : Action Machine α} {y : Action Heap α} (hx : Lifts env x y) :
    Action.onPart (Machine.mk env) (fun m _ => m.heap) x = y := by
  funext h
  have hrun := hx ⟨env, h⟩ h rfl
  unfold Action.onPart
  cases hm : x ⟨env, h⟩ <;> cases hh : y h <;> simp only [hm, hh] at hrun ⊢
  case ok.ok =>
    obtain ⟨rfl, rfl⟩ := hrun
    rfl
  case error.error =>
    obtain ⟨rfl, rfl⟩ := hrun trivial
    rfl
  case error.ok => exact (hrun trivial).elim

theorem lifts_under {p : Pattern} {v : Value} {x : Action Machine α} {y : Stack → Action Heap α}
    (h : ∀ vs, Lifts (vs ++ env) x (y (vs ++ env))) :
    Lifts env
      (do
        let before ← get
        onEnv (p.bind v)
        Action.afterwards (truncate before.env.length) x)
      (do
        let vs ← Action.ofExcept (p.slots v)
        y (vs ++ env)) := by
  rintro m heap rfl
  have hb := p.bind_eq v env
  rw [Action.get_bind]
  simp only [Bind.bind, EStateM.bind, onEnv, Action.onPart, Action.ofExcept]
  cases hs : p.slots v with
  | error e =>
    rw [hs] at hb
    obtain ⟨env', hb⟩ := hb
    simp only [hb]
    exact fun _ => ⟨trivial, trivial⟩
  | ok vs =>
    rw [hs] at hb
    have hrun := h vs ⟨vs ++ env, heap⟩ heap rfl
    simp only at hb
    simp only [hb, Action.afterwards]
    cases hx : x ⟨vs ++ env, heap⟩ <;> cases hy : y (vs ++ env) heap <;>
      simp only [hx, hy] at hrun ⊢
    case ok.ok =>
      obtain ⟨rfl, rfl⟩ := hrun
      exact ⟨rfl, by rw [truncate, Stack.truncate_append]⟩
    case error.error => exact hrun
    case error.ok => exact hrun

end Machine

namespace Program

variable {Op : Type} [Executable Op]

theorem run_lifts (t : Program Op) (env : Stack) : Machine.Lifts env t.run (t.runIn env) := by
  induction t generalizing env with
  | exec op args =>
    exact (Machine.lifts_observe fun _ => rfl).bind fun actuals =>
      (Machine.lifts_onHeap _).bind fun _ => Machine.lifts_pure _
  | ret t => exact Machine.lifts_observe fun _ => rfl
  | compute e => exact Machine.lifts_observe fun _ => rfl
  | alloc elem shape =>
    exact (Machine.lifts_observe fun _ => rfl).bind fun extents =>
      (Machine.lifts_onHeap _).bind fun b => Machine.lifts_pure _
  | letIn p bound body hbound hbody =>
    exact (hbound env).bind fun v =>
      Machine.lifts_under (y := (body.runIn ·)) fun vs => hbody (vs ++ env)
  | cond test onTrue onFalse ht hf =>
    refine (Machine.lifts_observe fun _ => rfl).bind fun v =>
      (Machine.lifts_observe fun _ => rfl).bind fun x => ?_
    cases x with
    | bool b =>
      cases b
      · exact hf env
      · exact ht env
    | int _ | float _ => exact Machine.lifts_throw _

theorem run_eq_ok_iff {t : Program Op} {env : Stack} {heap : Heap} {v : Value} {m : Machine} :
    t.run ⟨env, heap⟩ = .ok v m ↔ ∃ h, m = ⟨env, h⟩ ∧ t.runIn env heap = .ok v h := by
  have hrun := t.run_lifts env ⟨env, heap⟩ heap rfl
  cases hx : t.run ⟨env, heap⟩ <;> cases hy : t.runIn env heap <;> simp only [hx, hy] at hrun
  case ok.ok =>
    obtain ⟨rfl, rfl⟩ := hrun
    constructor
    · intro h
      cases h
      exact ⟨_, rfl, rfl⟩
    · rintro ⟨h, rfl, hh⟩
      cases hh
      rfl
  case error.error =>
    constructor
    · intro h
      cases h
    · rintro ⟨_, _, hh⟩
      cases hh
  case error.ok => exact (hrun trivial).elim

def effect (t : Program Op) (env : Stack) (heap : Heap) : Except Fault Value × Heap :=
  let (answer, m) := t.run.outcome ⟨env, heap⟩
  (answer, m.heap)

theorem effect_eq_outcome (t : Program Op) (env : Stack) (heap : Heap) :
    t.effect env heap = (t.runIn env).outcome heap := by
  rw [← (t.run_lifts env).onPart_eq]
  unfold effect Action.outcome Action.onPart
  cases t.run ⟨env, heap⟩ <;> rfl

end Program

end ArrayFusion

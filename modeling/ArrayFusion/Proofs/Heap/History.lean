import ArrayFusion.Proofs.Heap.Liveness
set_option autoImplicit false

namespace ArrayFusion

namespace Heap

inductive Event where
  | made (b : BufferId) (x : Buffer)
  | wrote (b : BufferId) (i : Nat) (v : Literal)
  | freed (b : BufferId)
  deriving DecidableEq, Repr

def Event.name? : Event → Option BufferId
  | .made b _ => some b
  | _ => none

def namesIn (log : List Event) : List BufferId := log.filterMap Event.name?

def liveAfter (b : BufferId) : List Event → Bool
  | [] => false
  | .made c _ :: log => if b = c then true else liveAfter b log
  | .wrote .. :: log => liveAfter b log
  | .freed c :: log => if b = c then false else liveAfter b log

/-- What was last written to the position, or else what the buffer was made with. -/
def valueAfter (b : BufferId) (i : Nat) : List Event → Option Literal
  | [] => none
  | .made c x :: log => if b = c then x.data[i]? else valueAfter b i log
  | .wrote c j v :: log => if b = c ∧ i = j then some v else valueAfter b i log
  | .freed _ :: log => valueAfter b i log

def zeros? (elem : Ty) (shape : Shape) : Option Buffer :=
  (zeroOf elem).toOption.map fun zero => ⟨shape, List.replicate shape.volume zero⟩

def making (x : Option Buffer) : Except Fault BufferId → List Event
  | .ok b => x.toList.map (.made b)
  | .error _ => []

def writing (b : BufferId) (i : Nat) (v : Literal) : Except Fault Unit → List Event
  | .ok () => [.wrote b i v]
  | .error _ => []

/-- The events of a computation that starts from a heap. A fault is the end of it, and
what came before has happened. -/
inductive Performs : {α : Type} → Action Heap α → Heap → List Event → Prop
  | observe {α : Type} (f : Heap → Except Fault α) (h : Heap) :
      Performs (Action.observe f) h []
  | alloc (elem : Ty) (shape : Shape) (h : Heap) :
      Performs (alloc elem shape) h (making (zeros? elem shape) ((alloc elem shape).outcome h).1)
  | store (shape : Shape) (data : List Literal) (h : Heap) :
      Performs (store shape data) h (making (some ⟨shape, data⟩) ((store shape data).outcome h).1)
  | write (b : BufferId) (i : Nat) (v : Literal) (h : Heap) :
      Performs (write b i v) h (writing b i v ((write b i v).outcome h).1)
  | free {α : Type} {x : Action Heap α} {h : Heap} {es : List Event} (b : BufferId)
      (performed : Performs x h es) :
      Performs (Action.afterwards (Heap.free · b) x) h (.freed b :: es)
  | bind {α β : Type} {x : Action Heap α} {f : α → Action Heap β} {h g : Heap} {a : α}
      {es fs : List Event} (hx : x.outcome h = (.ok a, g)) (performed : Performs x h es)
      (continued : Performs (f a) g fs) : Performs (x >>= f) h (fs ++ es)
  | stop {α β : Type} {x : Action Heap α} {f : α → Action Heap β} {h g : Heap} {e : Fault}
      {es : List Event} (hx : x.outcome h = (.error e, g)) (performed : Performs x h es) :
      Performs (x >>= f) h es

structure Recorded (log : List Event) (h : Heap) : Prop where
  names : namesIn log = ((List.range h.next).map BufferId.mk).reverse
  live : ∀ b, (h.find? b).isSome = liveAfter b log
  sized : h.WellSized
  value : ∀ b x, h.find? b = some x → ∀ i, x.data[i]? = valueAfter b i log

theorem recorded_empty : Recorded [] empty := by
  refine ⟨rfl, fun b => ?_, fun b x hb => ?_, fun b x hb => ?_⟩
  · simp [find?, empty, liveAfter]
  · simp [find?, empty] at hb
  · simp [find?, empty] at hb

/-- A fault changes nothing, and else the buffer is there under the next name. -/
def Inserted (h : Heap) (made? : Option Buffer) (r : Except Fault BufferId × Heap) : Prop :=
  (∃ e, r = (.error e, h)) ∨ ∃ x : Buffer, made? = some x ∧ x.data.length = x.shape.volume ∧
    r = (.ok ⟨h.next⟩, ⟨h.cells ++ [some x]⟩)

theorem inserted_alloc (elem : Ty) (shape : Shape) (h : Heap) :
    Inserted h (zeros? elem shape) ((alloc elem shape).outcome h) := by
  unfold alloc zeros?
  rw [Action.outcome_bind]
  cases zeroOf elem with
  | error e => exact .inl ⟨e, rfl⟩
  | ok zero => exact .inr ⟨_, rfl, List.length_replicate, rfl⟩

theorem inserted_store (shape : Shape) (data : List Literal) (h : Heap) :
    Inserted h (some ⟨shape, data⟩) ((store shape data).outcome h) := by
  unfold store
  by_cases hs : shape.volume = data.length
  · rw [if_pos hs]
    exact .inr ⟨_, rfl, hs.symm, rfl⟩
  · rw [if_neg hs]
    exact .inl ⟨_, rfl⟩

namespace Recorded

variable {log : List Event} {h : Heap} {b : BufferId} {x : Buffer}

theorem made (hl : Recorded log h) (hx : x.data.length = x.shape.volume) :
    Recorded (.made ⟨h.next⟩ x :: log) ⟨h.cells ++ [some x]⟩ := by
  refine ⟨?_, fun c => ?_, wellSized_insert hl.sized hx, fun c y hc i => ?_⟩
  · have hnext : Heap.next ⟨h.cells ++ [some x]⟩ = h.next + 1 := List.length_append
    rw [hnext, List.range_succ, List.map_append, List.reverse_append, ← hl.names]
    rfl
  · rw [find?_insert, liveAfter, ← hl.live]
    split <;> rfl
  · rw [find?_insert] at hc
    rw [valueAfter]
    split at hc
    · cases hc
      rw [if_pos ‹_›]
    · rw [if_neg ‹_›]
      exact hl.value c y hc i

theorem wrote (hl : Recorded log h) {i : Nat} (hb : h.find? b = some x) (hi : i < x.data.length)
    (v : Literal) :
    Recorded (.wrote b i v :: log) ⟨h.cells.set b.number (some ⟨x.shape, x.data.set i v⟩)⟩ := by
  have hlt := number_lt_next hb
  refine ⟨?_, fun c => ?_, fun c y hc => ?_, fun c y hc j => ?_⟩
  · rw [next, List.length_set]
    exact hl.names
  · rw [find?_set hlt, liveAfter, ← hl.live]
    split
    · rw [‹c = b›, hb]
      rfl
    · rfl
  · rw [find?_set hlt] at hc
    split at hc
    · cases hc
      exact (List.length_set ..).trans (hl.sized b x hb)
    · exact hl.sized c y hc
  · rw [find?_set hlt] at hc
    rw [valueAfter]
    split at hc
    · rename_i hcb
      cases hc
      by_cases hji : j = i
      · rw [if_pos ⟨hcb, hji⟩, hji, List.getElem?_set_self hi]
      · rw [if_neg fun hj => hji hj.2, List.getElem?_set_ne (Ne.symm hji), hcb]
        exact hl.value b x hb j
    · rw [if_neg fun hj => absurd hj.1 ‹_›]
      exact hl.value c y hc j

theorem freed (hl : Recorded log h) (b : BufferId) : Recorded (.freed b :: log) (h.free b) := by
  refine ⟨?_, fun c => ?_, fun c y hc => ?_, fun c y hc i => ?_⟩
  · rw [next, free, List.length_set]
    exact hl.names
  · rw [find?_free, liveAfter, ← hl.live]
    split <;> rfl
  · rw [find?_free] at hc
    split at hc
    · cases hc
    · exact hl.sized c y hc
  · rw [find?_free] at hc
    split at hc
    · cases hc
    · exact hl.value c y hc i

theorem inserted {made? : Option Buffer} {r : Except Fault BufferId × Heap}
    (hl : Recorded log h) (hr : Inserted h made? r) : Recorded (making made? r.1 ++ log) r.2 := by
  rcases hr with ⟨e, rfl⟩ | ⟨x, rfl, hx, rfl⟩
  · exact hl
  · exact hl.made hx

theorem written (hl : Recorded log h) (b : BufferId) (i : Nat) (v : Literal) :
    Recorded (writing b i v ((write b i v).outcome h).1 ++ log) ((write b i v).outcome h).2 := by
  rcases write_cases b i v h with ⟨e, hw⟩ | ⟨x, hx, hi, hw⟩
  · rw [hw]
    exact hl
  · rw [hw]
    exact hl.wrote hx hi v

theorem read_eq_ok_iff (hl : Recorded log h) {i : Nat} {v : Literal} :
    h.read b i = .ok v ↔ liveAfter b log = true ∧ valueAfter b i log = some v := by
  rw [← hl.live]
  cases hb : h.find? b with
  | none => simp [read, buffer, hb, bind, Except.bind]
  | some x =>
    rw [read_of_find? hb, ← hl.value b x hb i]
    cases x.data[i]? <;> simp

theorem nodup_namesIn (hl : Recorded log h) : (namesIn log).Nodup := by
  rw [hl.names, List.Nodup, List.pairwise_reverse, List.pairwise_map]
  exact List.nodup_range.imp fun hne he => hne (BufferId.mk.inj he).symm

end Recorded

theorem Performs.recorded {α : Type} {x : Action Heap α} {h : Heap} {es log : List Event}
    (hp : Performs x h es) (hl : Recorded log h) : Recorded (es ++ log) (x.outcome h).2 := by
  induction hp generalizing log with
  | observe f h =>
    rw [Action.outcome_observe]
    exact hl
  | alloc elem shape h => exact hl.inserted (inserted_alloc elem shape h)
  | store shape data h => exact hl.inserted (inserted_store shape data h)
  | write b i v h => exact hl.written b i v
  | free b _ ih =>
    rw [Action.outcome_afterwards rfl]
    exact (ih hl).freed b
  | bind hx _ _ ihx ihf =>
    have hx' := ihx hl
    rw [hx] at hx'
    rw [Action.outcome_bind, hx, List.append_assoc]
    exact ihf hx'
  | stop hx _ ih =>
    have hx' := ih hl
    rw [hx] at hx'
    rw [Action.outcome_bind, hx]
    exact hx'

def HasHistory {α : Type} (x : Action Heap α) : Prop := ∀ h, ∃ es, Performs x h es

section HasHistory

variable {α β : Type}

theorem hasHistory_observe (f : Heap → Except Fault α) : HasHistory (Action.observe f) :=
  fun h => ⟨[], .observe f h⟩

theorem hasHistory_ofExcept (x : Except Fault α) : HasHistory (Action.ofExcept x) :=
  hasHistory_observe fun _ => x

theorem hasHistory_pure (a : α) : HasHistory (pure a) := hasHistory_ofExcept (.ok a)

theorem hasHistory_throw (e : Fault) : HasHistory (throw e : Action Heap α) :=
  hasHistory_ofExcept (.error e)

theorem hasHistory_alloc (elem : Ty) (shape : Shape) : HasHistory (alloc elem shape) :=
  fun h => ⟨_, .alloc elem shape h⟩

theorem hasHistory_store (shape : Shape) (data : List Literal) : HasHistory (store shape data) :=
  fun h => ⟨_, .store shape data h⟩

theorem hasHistory_write (b : BufferId) (i : Nat) (v : Literal) : HasHistory (write b i v) :=
  fun h => ⟨_, .write b i v h⟩

theorem HasHistory.bind {x : Action Heap α} {f : α → Action Heap β} (hx : HasHistory x)
    (hf : ∀ a, HasHistory (f a)) : HasHistory (x >>= f) := by
  intro h
  obtain ⟨es, hes⟩ := hx h
  cases hr : x.outcome h with
  | mk r g =>
    cases r with
    | error e => exact ⟨es, .stop hr hes⟩
    | ok a =>
      obtain ⟨fs, hfs⟩ := hf a g
      exact ⟨fs ++ es, .bind hr hes hfs⟩

theorem HasHistory.free {x : Action Heap α} (hx : HasHistory x) (b : BufferId) :
    HasHistory (Action.afterwards (Heap.free · b) x) := by
  intro h
  obtain ⟨es, hes⟩ := hx h
  exact ⟨.freed b :: es, .free b hes⟩

theorem HasHistory.foldl_free {x : Action Heap α} (hx : HasHistory x) (bs : List BufferId) :
    HasHistory (Action.afterwards (bs.foldl Heap.free) x) := by
  induction bs generalizing x with
  | nil => exact (Action.afterwards_id x).symm ▸ hx
  | cons b bs ih =>
    have hrest := ih (hx.free b)
    rwa [← Action.afterwards_comp] at hrest

end HasHistory

end Heap

end ArrayFusion

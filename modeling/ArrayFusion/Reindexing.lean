import ArrayFusion.Pattern.Rebuild
set_option autoImplicit false

namespace ArrayFusion

abbrev Reindexing := Ref → Option Ref

namespace Reindexing

def Total (m : Reindexing) : Prop := ∀ r, (m r).isSome

def weaken (n : Nat) : Reindexing := fun r => some (r.shifted n)

theorem total_weaken (n : Nat) : (weaken n).Total := fun _ => rfl

def strengthen (k : Nat) : Reindexing := fun r =>
  if r.index < k then some r else if r.index = k then none else some (r.lowered 1)

def andThen (first second : Reindexing) : Reindexing := fun r => (first r).bind second

theorem weaken_andThen_weaken (m n : Nat) :
    (weaken m).andThen (weaken n) = weaken (m + n) := by
  funext r
  simp [andThen, weaken, Ref.shifted_shifted]

/-- The map under `n` slots that stay what they are. -/
def sink (m : Reindexing) (n : Nat) : Reindexing := fun r =>
  if r.index < n then some r else (m (r.lowered n)).map (·.shifted n)

theorem Total.sink {m : Reindexing} (h : m.Total) (n : Nat) : (m.sink n).Total := by
  intro r
  unfold Reindexing.sink
  split
  · rfl
  · simpa using h (r.lowered n)

def insertSlot (k : Nat) : Reindexing := sink (weaken 1) k

def under (m : Reindexing) (p : Pattern) : Reindexing := m.sink p.size

/-- The map under slots that move: slot `i` goes to `slots[i]` among `added` new
ones, or is dropped. -/
def rebuild (m : Reindexing) (slots : List (Option Nat)) (added : Nat) : Reindexing := fun r =>
  match slots[r.index]? with
  | some slot => slot.map (⟨·, r.ty⟩)
  | none => (m (r.lowered slots.length)).map (·.shifted added)

def underRebuilt (m : Reindexing) (old new : Pattern) : Except Fault Reindexing := do
  let slots ← old.slotMap new
  .ok (m.rebuild slots new.size)

def table (entries : List (Option Nat)) : Reindexing := fun r =>
  entries[r.index]?.join.map (⟨·, r.ty⟩)

def substitute (refs : List Ref) : Reindexing := fun r =>
  match refs[r.index]? with
  | some s => some s
  | none => some (r.lowered refs.length)

theorem total_substitute (refs : List Ref) : (substitute refs).Total := by
  intro r
  unfold substitute
  split <;> rfl

end Reindexing

end ArrayFusion

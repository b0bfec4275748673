import ArrayFusion.Fault
set_option autoImplicit false

namespace ArrayFusion

namespace Pattern

/-- For every slot of the old pattern, topmost first, its index from the top of
the new pattern, or nothing if it was discarded. -/
def slotMap : Pattern → Pattern → Except Fault (List (Option Nat))
  | .wild t, .wild u =>
    if t = u then .ok [] else .error (.invariant (.notRebuildable (.wild t) (.wild u)))
  | .slot t, .slot u =>
    if t = u then .ok [some 0] else .error (.invariant (.notRebuildable (.slot t) (.slot u)))
  | .slot t, .wild u =>
    if t = u then .ok [none] else .error (.invariant (.notRebuildable (.slot t) (.wild u)))
  | .pair l r, .pair l' r' => do
    let ls ← l.slotMap l'
    let rs ← r.slotMap r'
    .ok (rs ++ ls.map (·.map (· + r'.size)))
  | p, q => .error (.invariant (.notRebuildable p q))

/-- The second pattern is the first one with some of its slots discarded, and the list says
where the slots of the first are in the second. -/
inductive Rebuilds : Pattern → Pattern → List (Option Nat) → Prop where
  | wild (t : Ty) : Rebuilds (.wild t) (.wild t) []
  | kept (t : Ty) : Rebuilds (.slot t) (.slot t) [some 0]
  | dropped (t : Ty) : Rebuilds (.slot t) (.wild t) [none]
  | pair {l l' r r' : Pattern} {ls rs : List (Option Nat)} :
      Rebuilds l l' ls → Rebuilds r r' rs →
      Rebuilds (.pair l r) (.pair l' r') (rs ++ ls.map (·.map (· + r'.size)))

theorem slotMap_pair {l r l' r' : Pattern} {slots : List (Option Nat)}
    (h : (Pattern.pair l r).slotMap (.pair l' r') = .ok slots) :
    ∃ ls rs, l.slotMap l' = .ok ls ∧ r.slotMap r' = .ok rs ∧
      slots = rs ++ ls.map (·.map (· + r'.size)) := by
  simp only [slotMap, bind, Except.bind] at h
  split at h
  · simp at h
  · rename_i ls hl
    split at h
    · simp at h
    · rename_i rs hr
      exact ⟨ls, rs, hl, hr, by simpa using h.symm⟩

theorem rebuilds_of_slotMap {p q : Pattern} {slots : List (Option Nat)}
    (h : p.slotMap q = .ok slots) : Rebuilds p q slots := by
  fun_induction slotMap p q generalizing slots with
  | case1 t =>
    cases h
    exact .wild t
  | case3 t =>
    cases h
    exact .kept t
  | case5 t =>
    cases h
    exact .dropped t
  | case7 l r l' r' hl hr =>
    obtain ⟨ls, rs, hls, hrs, rfl⟩ := slotMap_pair h
    exact .pair (hl hls) (hr hrs)
  | case2 | case4 | case6 | case8 => cases h

theorem Rebuilds.length_eq {p q : Pattern} {slots : List (Option Nat)} (h : Rebuilds p q slots) :
    slots.length = p.size := by
  induction h with
  | wild t | kept t | dropped t => rfl
  | pair _ _ hl hr => simp [size, hl, hr, Nat.add_comm]

theorem length_slotMap {p q : Pattern} {slots : List (Option Nat)}
    (h : p.slotMap q = .ok slots) : slots.length = p.size :=
  (rebuilds_of_slotMap h).length_eq

end Pattern

end ArrayFusion

import ArrayFusion.Proofs.Pattern.Restricting
set_option autoImplicit false

namespace ArrayFusion

namespace Pattern

theorem slotMap_self (p : Pattern) : p.slotMap p = .ok ((List.range p.size).map some) := by
  have h := p.slotMap_restrict fun _ => true
  have hrank (i : Nat) : rank (fun _ => true) i = i := rank_eq_self_iff.2 fun _ _ => rfl
  simpa [restrict_of_forall, hrank] using h

end Pattern

namespace Reindexing

variable (m : Reindexing)

theorem sink_sink (a b : Nat) : (m.sink a).sink b = m.sink (a + b) := by
  funext r
  by_cases hb : r.index < b
  · have hab : r.index < a + b := by omega
    simp [sink, hb, hab]
  · by_cases ha : r.index - b < a
    · have hab : r.index < a + b := by omega
      simp [sink, hb, ha, hab, Ref.shifted_lowered (Nat.not_lt.1 hb)]
    · have hab : ¬r.index < a + b := by omega
      simp [sink, hb, ha, hab, Ref.lowered_lowered, Ref.shifted_shifted, Nat.add_comm b,
        Function.comp_def]

/-- The slots of the right part lie on top. Below them come those of the left part, which
move by as many places as the right part has slots, and then everything else. -/
theorem rebuild_append (ls rs : List (Option Nat)) (added more : Nat) :
    m.rebuild (rs ++ ls.map (·.map (· + more))) (added + more) =
      (m.rebuild ls added).rebuild rs more := by
  funext r
  by_cases hr : r.index < rs.length
  · simp [rebuild, List.getElem?_append_left hr, hr]
  · have hle := Nat.not_lt.1 hr
    by_cases hl : r.index - rs.length < ls.length
    · cases hs : ls[r.index - rs.length] <;>
        simp [rebuild, List.getElem?_append_right hle, hr, hl, hs, Ref.shifted]
    · simp [rebuild, List.getElem?_append_right hle, hr, hl, Ref.lowered_lowered,
        Ref.shifted_shifted, Function.comp_def, Nat.add_comm rs.length]

theorem rebuild_range (n : Nat) : m.rebuild ((List.range n).map some) n = m.sink n := by
  funext r
  by_cases hr : r.index < n
  · simp [rebuild, sink, hr]
  · simp [rebuild, sink, hr]

theorem underRebuilt_self (p : Pattern) : m.underRebuilt p p = .ok (m.under p) := by
  rw [underRebuilt, p.slotMap_self, under, ← m.rebuild_range]
  rfl

theorem underRebuilt_pair (l l' r r' : Pattern) :
    m.underRebuilt (.pair l r) (.pair l' r') = (do
      let inner ← m.underRebuilt l l'
      inner.underRebuilt r r') := by
  cases hl : l.slotMap l' with
  | error e => simp [underRebuilt, Pattern.slotMap, hl, bind, Except.bind]
  | ok ls =>
    cases hr : r.slotMap r' with
    | error e => simp [underRebuilt, Pattern.slotMap, hl, hr, bind, Except.bind]
    | ok rs =>
      simp [underRebuilt, Pattern.slotMap, hl, hr, bind, Except.bind, Pattern.size,
        rebuild_append]

/-- Going under binders is going under their parts, one after the other. -/
theorem underRebuilt_by_parts (m : Reindexing) :
    (∀ (l l' r r' : Pattern) (ls rs : List (Option Nat)),
      l.slotMap l' = .ok ls → r.slotMap r' = .ok rs →
      ∃ inner whole, m.underRebuilt l l' = .ok inner ∧ inner.underRebuilt r r' = .ok whole ∧
        m.underRebuilt (.pair l r) (.pair l' r') = .ok whole) ∧
    (∀ p : Pattern, m.underRebuilt p p = .ok (m.under p)) ∧
    ∀ a b : Nat, (m.sink a).sink b = m.sink (a + b) := by
  refine ⟨fun l l' r r' ls rs hl hr => ?_, m.underRebuilt_self, m.sink_sink⟩
  have hinner : m.underRebuilt l l' = .ok (m.rebuild ls l'.size) := by
    rw [underRebuilt, hl]
    rfl
  have hwhole : (m.rebuild ls l'.size).underRebuilt r r' =
      .ok ((m.rebuild ls l'.size).rebuild rs r'.size) := by
    rw [underRebuilt, hr]
    rfl
  refine ⟨_, _, hinner, hwhole, ?_⟩
  rw [underRebuilt_pair, hinner]
  exact hwhole

/-- Of the left part the slot on top stays, of the right one the slot below. Outside of the
pair the map takes away a slot of its own. -/
theorem underRebuilt_by_parts_strengthen :
    let i : Ty := .int 64
    let m : Reindexing := .strengthen 1
    let l : Pattern := .pair (.slot i) (.slot i)
    let l' : Pattern := .pair (.wild i) (.slot i)
    let r : Pattern := .pair (.slot i) (.pair (.wild .bool) (.slot i))
    let r' : Pattern := .pair (.slot i) (.pair (.wild .bool) (.wild i))
    l.slotMap l' = .ok [some 0, none] ∧ r.slotMap r' = .ok [none, some 0] ∧
      ∃ inner whole, m.underRebuilt l l' = .ok inner ∧ inner.underRebuilt r r' = .ok whole ∧
        m.underRebuilt (.pair l r) (.pair l' r') = .ok whole ∧
        (List.range 7).map (fun k => (whole ⟨k, i⟩).map Ref.index) =
          [none, some 0, some 1, none, some 2, none, some 3] := by
  intro i m l l' r r'
  obtain ⟨inner, whole, hinner, hwhole, hpair⟩ :=
    (underRebuilt_by_parts m).1 l l' r r' [some 0, none] [none, some 0] rfl rfl
  have hw : m.underRebuilt (.pair l r) (.pair l' r') =
      .ok (m.rebuild [none, some 0, some 1, none] 2) := rfl
  cases hw.symm.trans hpair
  exact ⟨rfl, rfl, inner, _, hinner, hwhole, hpair, rfl⟩

end Reindexing

end ArrayFusion

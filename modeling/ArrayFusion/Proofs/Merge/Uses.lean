import ArrayFusion.Cluster.Dataflow
import ArrayFusion.Proofs.Actual
import ArrayFusion.Proofs.Merge.Joining
set_option autoImplicit false

/-!
The users that a merge records for each argument, seen from the buffers. As long
as no buffer stands for two arguments, the users of a merged buffer are those of
the side that it comes from, and an edge joins a writer and a reader of one buffer.
-/

namespace ArrayFusion

namespace Actual

def Uses (b : BufferId) (i : Nat) : List Actual → List (List Nat) → Prop
  | [], _ => False
  | a :: args, us => (a.buffer? = some b ∧ i ∈ us.headD []) ∨ Uses b i args us.tail

theorem Uses.mem_buffers {b : BufferId} {i : Nat} {args : List Actual} {us : List (List Nat)}
    (h : Uses b i args us) : b ∈ buffers args := by
  induction args generalizing us with
  | nil => exact h.elim
  | cons a args ih =>
    rcases h with ⟨ha, _⟩ | h
    · exact Actual.mem_buffers.2 ⟨a, List.mem_cons_self .., ha⟩
    · obtain ⟨a', ha', hb⟩ := Actual.mem_buffers.1 (ih h)
      exact Actual.mem_buffers.2 ⟨a', List.mem_cons_of_mem _ ha', hb⟩

theorem uses_cons_iff {b : BufferId} {i : Nat} {a : Actual} {args : List Actual}
    {us : List (List Nat)} :
    Uses b i (a :: args) us ↔ (a.buffer? = some b ∧ i ∈ us.headD []) ∨ Uses b i args us.tail :=
  Iff.rfl

end Actual

open Actual

variable {ms : List MergeMode} {l r m c : List Actual}

theorem Joined.buffers_left (h : Joined ms l r m c) {b : BufferId} (hb : b ∈ buffers l) :
    b ∈ buffers (m ++ c) := by
  obtain ⟨a, ha, hab⟩ := mem_buffers.1 hb
  exact mem_buffers.2 ⟨a, h.mem_of_mem_left ha, hab⟩

theorem Joined.buffers_right (h : Joined ms l r m c) {b : BufferId} (hb : b ∈ buffers r) :
    b ∈ buffers (m ++ c) := by
  obtain ⟨y, hy, hyb⟩ := mem_buffers.1 hb
  rcases h.mem_of_mem_right hy with hm | ⟨x, hx, t, _, rfl⟩
  · exact mem_buffers.2 ⟨y, List.mem_append_left _ hm, hyb⟩
  · exact h.buffers_left (mem_buffers.2 ⟨x, hx, (buffer?_toInput x).symm.trans hyb⟩)

/-- Neither side names a buffer twice, and a buffer that both sides name is what
the right one reads of the left one. -/
structure Separate (l r : List Actual) : Prop where
  left : (buffers l).Nodup
  right : (buffers r).Nodup
  eq_toInput : ∀ x ∈ l, ∀ y ∈ r, ∀ b, x.buffer? = some b → y.buffer? = some b → y = x.toInput

namespace Separate

variable {x : Actual} {l r : List Actual}

theorem cons_left (h : Separate l r)
    (hx : ∀ b, x.buffer? = some b → b ∉ buffers l ∧ b ∉ buffers r) : Separate (x :: l) r where
  left := nodup_buffers_cons.2 ⟨fun b hb => (hx b hb).1, h.left⟩
  right := h.right
  eq_toInput := by
    intro x' hx' y hy b hb hyb
    rcases List.mem_cons.1 hx' with rfl | hx'
    · exact absurd (mem_buffers.2 ⟨y, hy, hyb⟩) (hx b hb).2
    · exact h.eq_toInput x' hx' y hy b hb hyb

theorem cons_right (h : Separate l r)
    (hx : ∀ b, x.buffer? = some b → b ∉ buffers l ∧ b ∉ buffers r) : Separate l (x :: r) where
  left := h.left
  right := nodup_buffers_cons.2 ⟨fun b hb => (hx b hb).2, h.right⟩
  eq_toInput := by
    intro x' hx' y hy b hb hyb
    rcases List.mem_cons.1 hy with rfl | hy
    · exact absurd (mem_buffers.2 ⟨x', hx', hb⟩) (hx b hyb).1
    · exact h.eq_toInput x' hx' y hy b hb hyb

theorem cons_both (h : Separate l r)
    (hx : ∀ b, x.buffer? = some b → b ∉ buffers l ∧ b ∉ buffers r) :
    Separate (x :: l) (x.toInput :: r) where
  left := nodup_buffers_cons.2 ⟨fun b hb => (hx b hb).1, h.left⟩
  right := nodup_buffers_cons.2 ⟨fun b hb => (hx b (by simpa using hb)).2, h.right⟩
  eq_toInput := by
    intro x' hx' y hy b hb hyb
    rcases List.mem_cons.1 hx' with rfl | hx' <;> rcases List.mem_cons.1 hy with rfl | hy
    · rfl
    · exact absurd (mem_buffers.2 ⟨y, hy, hyb⟩) (hx b hb).2
    · rw [buffer?_toInput] at hyb
      exact absurd (mem_buffers.2 ⟨x', hx', hb⟩) (hx b hyb).1
    · exact h.eq_toInput x' hx' y hy b hb hyb

end Separate

theorem Joined.separate (h : Joined ms l r m c) (hn : (buffers (m ++ c)).Nodup) :
    Separate l r := by
  induction h with
  | nil => exact ⟨List.nodup_nil, List.nodup_nil, by simp⟩
  | @consumed ms l r m c x t hx h ih =>
    have hp : (buffers (m ++ x :: c)).Perm (buffers (x :: (m ++ c))) :=
      List.perm_middle.filterMap _
    obtain ⟨hx, hn⟩ := nodup_buffers_cons.1 (hp.nodup_iff.1 hn)
    exact (ih hn).cons_both fun b hb =>
      ⟨fun hl => hx b hb (h.buffers_left hl), fun hr => hx b hb (h.buffers_right hr)⟩
  | kept _ h ih =>
    obtain ⟨hx, hn⟩ := nodup_buffers_cons.1 hn
    exact (ih hn).cons_both fun b hb =>
      ⟨fun hl => hx b hb (h.buffers_left hl), fun hr => hx b hb (h.buffers_right hr)⟩
  | shared hp h ih =>
    obtain ⟨b', rfl⟩ := input_of_param hp
    obtain ⟨hx, hn⟩ := nodup_buffers_cons.1 hn
    exact (ih hn).cons_both fun b hb =>
      ⟨fun hl => hx b hb (h.buffers_left hl), fun hr => hx b hb (h.buffers_right hr)⟩
  | leftOnly h ih | leftOnlyOut _ h ih =>
    obtain ⟨hx, hn⟩ := nodup_buffers_cons.1 hn
    exact (ih hn).cons_left fun b hb =>
      ⟨fun hl => hx b hb (h.buffers_left hl), fun hr => hx b hb (h.buffers_right hr)⟩
  | rightOnly h ih | rightOnlyOut _ h ih =>
    obtain ⟨hx, hn⟩ := nodup_buffers_cons.1 hn
    exact (ih hn).cons_right fun b hb =>
      ⟨fun hl => hx b hb (h.buffers_left hl), fun hr => hx b hb (h.buffers_right hr)⟩

section Uses

variable {b : BufferId} {i : Nat} {ul ur : List (List Nat)}

theorem Actual.uses_cons_of_ne {a : Actual} {args : List Actual} {us : List (List Nat)}
    (h : a.buffer? ≠ some b) : Uses b i (a :: args) us ↔ Uses b i args us.tail := by
  rw [uses_cons_iff]
  exact ⟨fun hu => hu.resolve_left fun ha => h ha.1, .inr⟩

theorem Actual.uses_toInput_cons_of_ne {a : Actual} {args : List Actual}
    {us : List (List Nat)} (h : a.buffer? ≠ some b) :
    Uses b i (Argument.toInput a :: args) us ↔ Uses b i args us.tail := by
  apply uses_cons_of_ne
  rwa [← buffer?_toInput a] at h

theorem Joined.uses_iff_of_not_output (h : Joined ms l r m c)
    (hb : ∀ t, Actual.output b t ∉ m ++ c) :
    Uses b i m (mergeUses ms ul ur) ↔ Uses b i l ul ∨ Uses b i r ur := by
  induction h generalizing ul ur with
  | nil => simp [Uses]
  | @consumed ms l r m c x t hp _ ih =>
    obtain ⟨b', rfl⟩ := output_of_param hp
    have hne := buffer?_ne_of_output_not_mem hb (by simp : Actual.output b' t ∈ _)
    have ih := @ih ul.tail ur.tail fun t ht =>
      hb t (List.perm_middle.mem_iff.2 (List.mem_cons_of_mem _ ht))
    rw [mergeUses, ih, uses_cons_of_ne hne, uses_toInput_cons_of_ne hne]
  | @kept ms l r m c x t hp _ ih =>
    obtain ⟨b', rfl⟩ := output_of_param hp
    have hne := buffer?_ne_of_output_not_mem hb (by simp : Actual.output b' t ∈ _)
    have ih := @ih ul.tail ur.tail fun t ht => hb t (List.mem_cons_of_mem _ ht)
    rw [mergeUses, uses_cons_of_ne hne, uses_cons_of_ne hne, uses_toInput_cons_of_ne hne]
    exact ih
  | shared _ _ ih =>
    have ih := @ih ul.tail ur.tail fun t ht => hb t (List.mem_cons_of_mem _ ht)
    simp only [mergeUses, uses_cons_iff, List.tail_cons, List.headD_cons, List.mem_eraseDups,
      List.mem_append, ih]
    grind
  | leftOnly _ ih | leftOnlyOut _ _ ih =>
    have ih := @ih ul.tail ur fun t ht => hb t (List.mem_cons_of_mem _ ht)
    simp only [mergeUses, uses_cons_iff, List.tail_cons, List.headD_cons, ih, or_assoc]
  | rightOnly _ ih | rightOnlyOut _ _ ih =>
    have ih := @ih ul ur.tail fun t ht => hb t (List.mem_cons_of_mem _ ht)
    simp only [mergeUses, uses_cons_iff, List.tail_cons, List.headD_cons, ih]
    grind

theorem Joined.uses_iff_left (h : Joined ms l r m c) (hm : ∀ t, Actual.input b t ∉ m)
    (hr : ∀ t, Actual.output b t ∉ r) (hc : b ∉ buffers c) :
    Uses b i m (mergeUses ms ul ur) ↔ Uses b i l ul := by
  induction h generalizing ul ur with
  | nil => rfl
  | @consumed ms l r m c x t hp _ ih =>
    obtain ⟨hne, hc⟩ := not_mem_buffers_cons.1 hc
    rw [mergeUses, uses_cons_of_ne hne]
    exact ih hm (fun t ht => hr t (List.mem_cons_of_mem _ ht)) hc
  | kept _ _ ih =>
    have ih := @ih ul.tail ur.tail (fun t ht => hm t (List.mem_cons_of_mem _ ht))
      (fun t ht => hr t (List.mem_cons_of_mem _ ht)) hc
    simp only [mergeUses, uses_cons_iff, List.tail_cons, List.headD_cons, ih]
  | @shared ms l r m c x t hp _ ih =>
    obtain ⟨b', rfl⟩ := input_of_param hp
    have hne := buffer?_ne_of_input_not_mem hm (List.mem_cons_self ..)
    have ih := @ih ul.tail ur.tail (fun t ht => hm t (List.mem_cons_of_mem _ ht))
      (fun t ht => hr t (List.mem_cons_of_mem _ ht)) hc
    rw [mergeUses, uses_cons_of_ne hne, uses_cons_of_ne hne]
    exact ih
  | leftOnly _ ih | leftOnlyOut _ _ ih =>
    have ih := @ih ul.tail ur (fun t ht => hm t (List.mem_cons_of_mem _ ht)) hr hc
    simp only [mergeUses, uses_cons_iff, List.tail_cons, List.headD_cons, ih]
  | @rightOnly ms l r m c x _ ih | @rightOnlyOut ms l r m c x _ _ _ ih =>
    have hne : x.buffer? ≠ some b := by
      intro he
      cases x with
      | input b' t => cases he ; exact hm t (List.mem_cons_self ..)
      | output b' t => cases he ; exact hr t (List.mem_cons_self ..)
      | scalar _ | function _ => cases he
    have ih := @ih ul ur.tail (fun t ht => hm t (List.mem_cons_of_mem _ ht))
      (fun t ht => hr t (List.mem_cons_of_mem _ ht)) hc
    rw [mergeUses, uses_cons_of_ne hne]
    exact ih

theorem Joined.uses_iff_right (h : Joined ms l r m c) (hl : b ∉ buffers l) :
    Uses b i m (mergeUses ms ul ur) ↔ Uses b i r ur := by
  induction h generalizing ul ur with
  | nil => rfl
  | consumed _ _ ih =>
    obtain ⟨hne, hl⟩ := not_mem_buffers_cons.1 hl
    rw [mergeUses, uses_toInput_cons_of_ne hne]
    exact ih hl
  | kept _ _ ih =>
    obtain ⟨hne, hl⟩ := not_mem_buffers_cons.1 hl
    rw [mergeUses, uses_cons_of_ne hne,
      uses_toInput_cons_of_ne hne]
    exact ih hl
  | shared _ _ ih =>
    obtain ⟨hne, hl⟩ := not_mem_buffers_cons.1 hl
    rw [mergeUses, uses_cons_of_ne hne, uses_cons_of_ne hne]
    exact ih hl
  | leftOnly _ ih | leftOnlyOut _ _ ih =>
    obtain ⟨hne, hl⟩ := not_mem_buffers_cons.1 hl
    rw [mergeUses, uses_cons_of_ne hne]
    exact ih hl
  | rightOnly _ ih | rightOnlyOut _ _ ih =>
    have ih := @ih ul ur.tail hl
    simp only [mergeUses, uses_cons_iff, List.tail_cons, List.headD_cons, ih]

end Uses

section Edges

variable {ul ur : List (List Nat)} {w k : Nat}

/-- Leaf `w` writes a buffer on the left that leaf `k` reads on the right. -/
def Feeds (l r : List Actual) (ul ur : List (List Nat)) (w k : Nat) : Prop :=
  ∃ b t, Actual.output b t ∈ l ∧ Actual.input b t ∈ r ∧ Uses b w l ul ∧ Uses b k r ur

variable {x : Actual}

theorem mem_cons_of_buffer?_ne {a : Actual} {b : BufferId} (ha : a.buffer? = some b)
    (hx : x.buffer? ≠ some b) : a ∈ x :: l ↔ a ∈ l := by
  rw [List.mem_cons]
  exact or_iff_right fun he => hx (he ▸ ha)

theorem feeds_cons_left (hx : ∀ b ∈ buffers r, x.buffer? ≠ some b) :
    Feeds (x :: l) r ul ur w k ↔ Feeds l r ul.tail ur w k := by
  constructor
  · rintro ⟨b, t, hw, hr, hu, hv⟩
    have hne := hx b (mem_buffers.2 ⟨_, hr, rfl⟩)
    exact ⟨b, t, (mem_cons_of_buffer?_ne rfl hne).1 hw, hr, (uses_cons_of_ne hne).1 hu, hv⟩
  · rintro ⟨b, t, hw, hr, hu, hv⟩
    exact ⟨b, t, List.mem_cons_of_mem _ hw, hr, .inr hu, hv⟩

theorem feeds_cons_right (hx : ∀ b ∈ buffers l, x.buffer? ≠ some b) :
    Feeds l (x :: r) ul ur w k ↔ Feeds l r ul ur.tail w k := by
  constructor
  · rintro ⟨b, t, hw, hr, hu, hv⟩
    have hne := hx b (mem_buffers.2 ⟨_, hw, rfl⟩)
    exact ⟨b, t, hw, (mem_cons_of_buffer?_ne rfl hne).1 hr, hu, (uses_cons_of_ne hne).1 hv⟩
  · rintro ⟨b, t, hw, hr, hu, hv⟩
    exact ⟨b, t, hw, List.mem_cons_of_mem _ hr, hu, .inr hv⟩

theorem feeds_cons_input {b : BufferId} {t : Ty} (hb : b ∉ buffers l) :
    Feeds (.input b t :: l) (.input b t :: r) ul ur w k ↔ Feeds l r ul.tail ur.tail w k := by
  constructor
  · rintro ⟨b', t', hw, hr, hu, hv⟩
    have hw : Actual.output b' t' ∈ l := by simpa using hw
    have hne : (Actual.input b t).buffer? ≠ some b' := by
      intro he
      cases he
      exact hb (mem_buffers.2 ⟨_, hw, rfl⟩)
    exact ⟨b', t', hw, (mem_cons_of_buffer?_ne rfl hne).1 hr, (uses_cons_of_ne hne).1 hu,
      (uses_cons_of_ne hne).1 hv⟩
  · rintro ⟨b', t', hw, hr, hu, hv⟩
    exact ⟨b', t', List.mem_cons_of_mem _ hw, List.mem_cons_of_mem _ hr, .inr hu, .inr hv⟩

theorem feeds_cons_output {b : BufferId} {t : Ty} (hl : b ∉ buffers l) (hr : b ∉ buffers r) :
    Feeds (.output b t :: l) (.input b t :: r) ul ur w k ↔
      (w ∈ ul.headD [] ∧ k ∈ ur.headD []) ∨ Feeds l r ul.tail ur.tail w k := by
  constructor
  · rintro ⟨b', t', hw, hr', hu, hv⟩
    by_cases he : b = b'
    · subst he
      exact .inl ⟨(hu.resolve_right fun h => hl h.mem_buffers).2,
        (hv.resolve_right fun h => hr h.mem_buffers).2⟩
    · have hne : (Actual.output b t).buffer? ≠ some b' := by simpa [buffer?] using he
      have hne' : (Actual.input b t).buffer? ≠ some b' := by simpa [buffer?] using he
      exact .inr ⟨b', t', (mem_cons_of_buffer?_ne rfl hne).1 hw,
        (mem_cons_of_buffer?_ne rfl hne').1 hr', (uses_cons_of_ne hne).1 hu,
        (uses_cons_of_ne hne').1 hv⟩
  · rintro (⟨hu, hv⟩ | ⟨b', t', hw, hr, hu, hv⟩)
    · exact ⟨b, t, List.mem_cons_self .., List.mem_cons_self .., .inl ⟨rfl, hu⟩, .inl ⟨rfl, hv⟩⟩
    · exact ⟨b', t', List.mem_cons_of_mem _ hw, List.mem_cons_of_mem _ hr, .inr hu, .inr hv⟩

theorem mem_flatMap_pairs {us vs : List Nat} :
    (w, k) ∈ us.flatMap (fun w => vs.map (fun c => (w, c))) ↔ w ∈ us ∧ k ∈ vs := by
  simp

/-- The recorded edges are those over which something flows. -/
theorem Joined.mem_mergeEdges_iff (h : Joined ms l r m c) (hn : (buffers (m ++ c)).Nodup) :
    (w, k) ∈ mergeEdges ms ul ur ↔ Feeds l r ul ur w k := by
  induction h generalizing ul ur with
  | nil => simp [mergeEdges, Feeds]
  | @consumed ms l r m c x t hp h ih =>
    obtain ⟨b, rfl⟩ := output_of_param hp
    have hm : (buffers (m ++ Actual.output b t :: c)).Perm
        (buffers (Actual.output b t :: (m ++ c))) := List.perm_middle.filterMap _
    obtain ⟨hx, hn⟩ := nodup_buffers_cons.1 (hm.nodup_iff.1 hn)
    have hb := hx b rfl
    rw [mergeEdges, List.mem_append, mem_flatMap_pairs, ih hn]
    exact (feeds_cons_output (fun hl => hb (h.buffers_left hl))
      (fun hr => hb (h.buffers_right hr))).symm
  | @kept ms l r m c x t hp h ih =>
    obtain ⟨b, rfl⟩ := output_of_param hp
    obtain ⟨hx, hn⟩ := nodup_buffers_cons.1 hn
    have hb := hx b rfl
    rw [mergeEdges, List.mem_append, mem_flatMap_pairs, ih hn]
    exact (feeds_cons_output (fun hl => hb (h.buffers_left hl))
      (fun hr => hb (h.buffers_right hr))).symm
  | @shared ms l r m c x t hp h ih =>
    obtain ⟨b, rfl⟩ := input_of_param hp
    obtain ⟨hx, hn⟩ := nodup_buffers_cons.1 hn
    rw [mergeEdges, ih hn]
    exact (feeds_cons_input fun hl => hx b rfl (h.buffers_left hl)).symm
  | leftOnly h ih | leftOnlyOut _ h ih =>
    obtain ⟨hx, hn⟩ := nodup_buffers_cons.1 hn
    rw [mergeEdges, ih hn]
    exact (feeds_cons_left fun b hb he => hx b he (h.buffers_right hb)).symm
  | rightOnly h ih | rightOnlyOut _ h ih =>
    obtain ⟨hx, hn⟩ := nodup_buffers_cons.1 hn
    rw [mergeEdges, ih hn]
    exact (feeds_cons_right fun b hb he => hx b he (h.buffers_left hb)).symm

end Edges

end ArrayFusion

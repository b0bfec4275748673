import ArrayFusion.Merge.Arguments
import ArrayFusion.Operand
import ArrayFusion.Proofs.Outcome
import ArrayFusion.Proofs.Actual
set_option autoImplicit false

/-!
Merging as a relation. `Joined` says of four argument lists at once what belongs
where; merging computes two of them from the other two and taking apart does the
reverse, so each undoes the other.
-/

namespace ArrayFusion

variable {α : Type} [Argument α]

/-- The left and the right lists on the one side, the merged list and the
arguments that stay inside on the other. -/
inductive Joined : List MergeMode → List α → List α → List α → List α → Prop where
  | nil : Joined [] [] [] [] []
  | consumed {ms : List MergeMode} {l r m c : List α} {x : α} {t : Ty} :
      Argument.param x = ⟨.output, t⟩ → Joined ms l r m c →
      Joined (.consumed :: ms) (x :: l) (Argument.toInput x :: r) m (x :: c)
  | kept {ms : List MergeMode} {l r m c : List α} {x : α} {t : Ty} :
      Argument.param x = ⟨.output, t⟩ → Joined ms l r m c →
      Joined (.kept :: ms) (x :: l) (Argument.toInput x :: r) (x :: m) c
  | shared {ms : List MergeMode} {l r m c : List α} {x : α} {t : Ty} :
      Argument.param x = ⟨.input, t⟩ → Joined ms l r m c →
      Joined (.shared :: ms) (x :: l) (x :: r) (x :: m) c
  | rightOnly {ms : List MergeMode} {l r m c : List α} {x : α} : Joined ms l r m c →
      Joined (.rightOnly :: ms) l (x :: r) (x :: m) c
  | leftOnly {ms : List MergeMode} {l r m c : List α} {x : α} : Joined ms l r m c →
      Joined (.leftOnly :: ms) (x :: l) r (x :: m) c
  | rightOnlyOut {ms : List MergeMode} {l r m c : List α} {x : α} {t : Ty} :
      Argument.param x = ⟨.output, t⟩ → Joined ms l r m c →
      Joined (.rightOnlyOut :: ms) l (x :: r) (x :: m) c
  | leftOnlyOut {ms : List MergeMode} {l r m c : List α} {x : α} {t : Ty} :
      Argument.param x = ⟨.output, t⟩ → Joined ms l r m c →
      Joined (.leftOnlyOut :: ms) (x :: l) r (x :: m) c

namespace Joined

variable {ms : List MergeMode} {l r m c : List α}

theorem split (h : Joined ms l r m c) : MergeMode.split ms m c = .ok (l, r) := by
  induction h with
  | nil => rfl
  | consumed _ _ ih | kept _ _ ih | shared _ _ ih | rightOnlyOut _ _ ih | leftOnlyOut _ _ ih
  | rightOnly _ ih | leftOnly _ ih =>
    simp only [MergeMode.split, ih]
    rfl

variable [LawfulArgument α]

theorem combine (h : Joined ms l r m c) : MergeMode.combine ms l r = .ok (m, c) := by
  induction h with
  | nil => rfl
  | consumed hx _ ih | kept hx _ ih =>
    rw [MergeMode.combine, if_pos (LawfulArgument.sameArray_toInput hx), ih]
    rfl
  | shared hx _ ih =>
    rw [MergeMode.combine, if_pos (LawfulArgument.sameArray_self hx), ih]
    rfl
  | rightOnlyOut _ _ ih | leftOnlyOut _ _ ih | rightOnly _ ih | leftOnly _ ih =>
    simp only [MergeMode.combine, ih]
    rfl

theorem merges (h : Joined ms l r m c) :
    Merges ms (signatureOf l) (signatureOf r) (signatureOf m) := by
  induction h with
  | nil => exact .nil
  | consumed hx _ ih =>
    rw [signatureOf_cons, signatureOf_cons, hx, LawfulArgument.param_toInput hx]
    exact .consumed _ ih
  | kept hx _ ih =>
    rw [signatureOf_cons, signatureOf_cons, signatureOf_cons, hx, LawfulArgument.param_toInput hx]
    exact .kept _ ih
  | shared hx _ ih =>
    rw [signatureOf_cons, signatureOf_cons, signatureOf_cons, hx]
    exact .shared _ ih
  | rightOnly _ ih => exact .rightOnly _ ih
  | leftOnly _ ih => exact .leftOnly _ ih
  | rightOnlyOut hx _ ih =>
    rw [signatureOf_cons, signatureOf_cons, hx]
    exact .rightOnlyOut _ ih
  | leftOnlyOut hx _ ih =>
    rw [signatureOf_cons, signatureOf_cons, hx]
    exact .leftOnlyOut _ ih

end Joined

theorem Joined.signatureOf_inner {ms : List MergeMode} {l r m c : List α}
    (h : Joined ms l r m c) : signatureOf c = Merge.consumedFrom ms (signatureOf l) := by
  induction h with
  | nil => rfl
  | consumed _ _ ih =>
    rw [signatureOf_cons, signatureOf_cons, Merge.consumedFrom, ih]
  | kept _ _ ih | shared _ _ ih | rightOnlyOut _ _ ih | leftOnlyOut _ _ ih
  | rightOnly _ ih | leftOnly _ ih => exact ih

namespace Joined

variable {ms : List MergeMode} {l r m c : List α}

theorem mem_of_mem_left (h : Joined ms l r m c) {x : α} (hx : x ∈ l) : x ∈ m ++ c := by
  induction h with
  | nil => exact hx
  | rightOnly _ ih | rightOnlyOut _ _ ih => exact List.mem_cons_of_mem _ (ih hx)
  | consumed _ _ ih =>
    rcases List.mem_cons.1 hx with rfl | hx
    · simp
    · exact List.perm_middle.mem_iff.2 (List.mem_cons_of_mem _ (ih hx))
  | kept _ _ ih | shared _ _ ih | leftOnly _ ih | leftOnlyOut _ _ ih =>
    rcases List.mem_cons.1 hx with rfl | hx
    · simp
    · exact List.mem_cons_of_mem _ (ih hx)

theorem mem_of_mem_right (h : Joined ms l r m c) {y : α} (hy : y ∈ r) :
    y ∈ m ∨ ∃ x ∈ l, ∃ t, Argument.param x = ⟨.output, t⟩ ∧ y = Argument.toInput x := by
  induction h with
  | nil => exact .inl hy
  | leftOnly _ ih | leftOnlyOut _ _ ih =>
    rcases ih hy with hm | ⟨x, hx, hp⟩
    · exact .inl (List.mem_cons_of_mem _ hm)
    · exact .inr ⟨x, List.mem_cons_of_mem _ hx, hp⟩
  | rightOnly _ ih | rightOnlyOut _ _ ih =>
    rcases List.mem_cons.1 hy with rfl | hy
    · exact .inl (List.mem_cons_self ..)
    · rcases ih hy with hm | hx
      · exact .inl (List.mem_cons_of_mem _ hm)
      · exact .inr hx
  | shared _ _ ih =>
    rcases List.mem_cons.1 hy with rfl | hy
    · exact .inl (List.mem_cons_self ..)
    · rcases ih hy with hm | ⟨x, hx, hp⟩
      · exact .inl (List.mem_cons_of_mem _ hm)
      · exact .inr ⟨x, List.mem_cons_of_mem _ hx, hp⟩
  | consumed hp _ ih =>
    rcases List.mem_cons.1 hy with rfl | hy
    · exact .inr ⟨_, List.mem_cons_self .., _, hp, rfl⟩
    · rcases ih hy with hm | ⟨x, hx, hp⟩
      · exact .inl hm
      · exact .inr ⟨x, List.mem_cons_of_mem _ hx, hp⟩
  | kept hp _ ih =>
    rcases List.mem_cons.1 hy with rfl | hy
    · exact .inr ⟨_, List.mem_cons_self .., _, hp, rfl⟩
    · rcases ih hy with hm | ⟨x, hx, hp⟩
      · exact .inl (List.mem_cons_of_mem _ hm)
      · exact .inr ⟨x, List.mem_cons_of_mem _ hx, hp⟩

theorem output_of_mem_inner (h : Joined ms l r m c) {x : α} (hx : x ∈ c) :
    ∃ t, Argument.param x = ⟨.output, t⟩ := by
  induction h with
  | nil => cases hx
  | consumed hp _ ih =>
    rcases List.mem_cons.1 hx with rfl | hx
    · exact ⟨_, hp⟩
    · exact ih hx
  | kept _ _ ih | shared _ _ ih | rightOnlyOut _ _ ih | leftOnlyOut _ _ ih
  | rightOnly _ ih | leftOnly _ ih => exact ih hx

theorem mem_left_or_right (h : Joined ms l r m c) {x : α} (hx : x ∈ m ++ c) :
    x ∈ l ∨ x ∈ r := by
  induction h with
  | nil => exact .inl hx
  | consumed _ _ ih =>
    have hx := List.perm_middle.mem_iff.1 hx
    rcases List.mem_cons.1 hx with rfl | hx
    · exact .inl (List.mem_cons_self ..)
    · exact (ih hx).imp (List.mem_cons_of_mem _) (List.mem_cons_of_mem _)
  | kept _ _ ih | shared _ _ ih =>
    rcases List.mem_cons.1 hx with rfl | hx
    · exact .inl (List.mem_cons_self ..)
    · exact (ih hx).imp (List.mem_cons_of_mem _) (List.mem_cons_of_mem _)
  | leftOnly _ ih | leftOnlyOut _ _ ih =>
    rcases List.mem_cons.1 hx with rfl | hx
    · exact .inl (List.mem_cons_self ..)
    · exact (ih hx).imp_left (List.mem_cons_of_mem _)
  | rightOnly _ ih | rightOnlyOut _ _ ih =>
    rcases List.mem_cons.1 hx with rfl | hx
    · exact .inr (List.mem_cons_self ..)
    · exact (ih hx).imp_right (List.mem_cons_of_mem _)

end Joined

/-- Lists of the signatures that the modes were checked for can be merged only
into lists that belong to them. -/
theorem joined_of_combine [LawfulArgument α] {ms : List MergeMode} {s t o : Signature}
    (h : Merges ms s t o) {l r m c : List α} (hl : signatureOf l = s) (hr : signatureOf r = t)
    (hc : MergeMode.combine ms l r = .ok (m, c)) : Joined ms l r m c := by
  induction h generalizing l r m c with
  | nil =>
    obtain rfl := signatureOf_eq_nil hl
    obtain rfl := signatureOf_eq_nil hr
    cases hc
    exact .nil
  | consumed t _ ih =>
    obtain ⟨a, l, rfl, ha, hl⟩ := signatureOf_eq_cons hl
    obtain ⟨b, r, rfl, hb, hr⟩ := signatureOf_eq_cons hr
    obtain ⟨hab, hc⟩ := ite_eq_ok.1 hc
    obtain ⟨⟨m', c'⟩, h', he⟩ := bind_eq_ok.1 hc
    cases he
    rw [LawfulArgument.eq_toInput ha hb hab]
    exact .consumed ha (ih hl hr h')
  | kept t _ ih =>
    obtain ⟨a, l, rfl, ha, hl⟩ := signatureOf_eq_cons hl
    obtain ⟨b, r, rfl, hb, hr⟩ := signatureOf_eq_cons hr
    obtain ⟨hab, hc⟩ := ite_eq_ok.1 hc
    obtain ⟨⟨m', c'⟩, h', he⟩ := bind_eq_ok.1 hc
    cases he
    rw [LawfulArgument.eq_toInput ha hb hab]
    exact .kept ha (ih hl hr h')
  | shared t _ ih =>
    obtain ⟨a, l, rfl, ha, hl⟩ := signatureOf_eq_cons hl
    obtain ⟨b, r, rfl, hb, hr⟩ := signatureOf_eq_cons hr
    obtain ⟨hab, hc⟩ := ite_eq_ok.1 hc
    obtain ⟨⟨m', c'⟩, h', he⟩ := bind_eq_ok.1 hc
    cases he
    rw [← LawfulArgument.eq_of_sameArray ha hb hab]
    exact .shared ha (ih hl hr h')
  | rightOnly p _ ih =>
    obtain ⟨b, r, rfl, _, hr⟩ := signatureOf_eq_cons hr
    obtain ⟨⟨m', c'⟩, h', he⟩ := bind_eq_ok.1 hc
    cases he
    exact .rightOnly (ih hl hr h')
  | leftOnly p _ ih =>
    obtain ⟨a, l, rfl, _, hl⟩ := signatureOf_eq_cons hl
    obtain ⟨⟨m', c'⟩, h', he⟩ := bind_eq_ok.1 hc
    cases he
    exact .leftOnly (ih hl hr h')
  | rightOnlyOut t _ ih =>
    obtain ⟨b, r, rfl, hb, hr⟩ := signatureOf_eq_cons hr
    obtain ⟨⟨m', c'⟩, h', he⟩ := bind_eq_ok.1 hc
    cases he
    exact .rightOnlyOut hb (ih hl hr h')
  | leftOnlyOut t _ ih =>
    obtain ⟨a, l, rfl, ha, hl⟩ := signatureOf_eq_cons hl
    obtain ⟨⟨m', c'⟩, h', he⟩ := bind_eq_ok.1 hc
    cases he
    exact .leftOnlyOut ha (ih hl hr h')

/-- Every merged list with arguments to stay inside comes from a left and a right
list of the signatures that the modes were checked for. -/
theorem exists_joined [LawfulArgument α] {ms : List MergeMode} {s t o : Signature}
    (h : Merges ms s t o) {m c : List α} (hm : signatureOf m = o)
    (hc : signatureOf c = Merge.consumedFrom ms s) :
    ∃ l r, signatureOf l = s ∧ signatureOf r = t ∧ Joined ms l r m c := by
  induction h generalizing m c with
  | nil =>
    obtain rfl := signatureOf_eq_nil hm
    obtain rfl := signatureOf_eq_nil hc
    exact ⟨[], [], rfl, rfl, .nil⟩
  | consumed t _ ih =>
    obtain ⟨x, c, rfl, hx, hc⟩ := signatureOf_eq_cons hc
    obtain ⟨l, r, hl, hr, h⟩ := ih hm hc
    exact ⟨_, _, by rw [signatureOf_cons, hx, hl],
      by rw [signatureOf_cons, LawfulArgument.param_toInput hx, hr], .consumed hx h⟩
  | kept t _ ih =>
    obtain ⟨x, m, rfl, hx, hm⟩ := signatureOf_eq_cons hm
    obtain ⟨l, r, hl, hr, h⟩ := ih hm hc
    exact ⟨_, _, by rw [signatureOf_cons, hx, hl],
      by rw [signatureOf_cons, LawfulArgument.param_toInput hx, hr], .kept hx h⟩
  | shared t _ ih =>
    obtain ⟨x, m, rfl, hx, hm⟩ := signatureOf_eq_cons hm
    obtain ⟨l, r, hl, hr, h⟩ := ih hm hc
    exact ⟨_, _, by rw [signatureOf_cons, hx, hl], by rw [signatureOf_cons, hx, hr], .shared hx h⟩
  | rightOnly p _ ih =>
    obtain ⟨x, m, rfl, hx, hm⟩ := signatureOf_eq_cons hm
    obtain ⟨l, r, hl, hr, h⟩ := ih hm hc
    exact ⟨_, _, hl, by rw [signatureOf_cons, hx, hr], .rightOnly h⟩
  | leftOnly p _ ih =>
    obtain ⟨x, m, rfl, hx, hm⟩ := signatureOf_eq_cons hm
    obtain ⟨l, r, hl, hr, h⟩ := ih hm hc
    exact ⟨_, _, by rw [signatureOf_cons, hx, hl], hr, .leftOnly h⟩
  | rightOnlyOut t _ ih =>
    obtain ⟨x, m, rfl, hx, hm⟩ := signatureOf_eq_cons hm
    obtain ⟨l, r, hl, hr, h⟩ := ih hm hc
    exact ⟨_, _, hl, by rw [signatureOf_cons, hx, hr], .rightOnlyOut hx h⟩
  | leftOnlyOut t _ ih =>
    obtain ⟨x, m, rfl, hx, hm⟩ := signatureOf_eq_cons hm
    obtain ⟨l, r, hl, hr, h⟩ := ih hm hc
    exact ⟨_, _, by rw [signatureOf_cons, hx, hl], hr, .leftOnlyOut hx h⟩

theorem Merges.result_unique {ms : List MergeMode} {s t o o' : Signature}
    (h : Merges ms s t o) (h' : Merges ms s t o') : o = o' := by
  induction h generalizing o' with
  | nil => cases h' ; rfl
  | consumed _ _ ih => cases h' with | consumed _ h' => exact ih h'
  | kept _ _ ih => cases h' with | kept _ h' => rw [ih h']
  | shared _ _ ih => cases h' with | shared _ h' => rw [ih h']
  | rightOnly _ _ ih => cases h' with | rightOnly _ h' => rw [ih h']
  | leftOnly _ _ ih => cases h' with | leftOnly _ h' => rw [ih h']
  | rightOnlyOut _ _ ih => cases h' with | rightOnlyOut _ h' => rw [ih h']
  | leftOnlyOut _ _ ih => cases h' with | leftOnlyOut _ h' => rw [ih h']

namespace Merge

def Joins (d : Merge) (l r m c : List α) : Prop :=
  signatureOf l = d.left ∧ signatureOf r = d.right ∧ Joined d.modes l r m c

variable {d : Merge} {l r m c : List α}

theorem Joins.signatureOf_inner (h : d.Joins l r m c) : signatureOf c = d.consumed := by
  rw [consumed, ← h.1]
  exact h.2.2.signatureOf_inner

variable [LawfulArgument α]

theorem Joins.signatureOf_merged (h : d.Joins l r m c) : signatureOf m = d.result := by
  have hm := h.2.2.merges
  rw [h.1, h.2.1] at hm
  exact hm.result_unique d.merges

theorem combineBoth_eq_ok_iff : d.combineBoth l r = .ok (m, c) ↔ d.Joins l r m c := by
  unfold combineBoth
  constructor
  · intro h
    obtain ⟨_, hl, h⟩ := bind_eq_ok.1 h
    obtain ⟨_, hr, h⟩ := bind_eq_ok.1 h
    have hl := (Signature.check_eq_ok_iff.1 hl).symm
    have hr := (Signature.check_eq_ok_iff.1 hr).symm
    exact ⟨hl, hr, joined_of_combine d.merges hl hr h⟩
  · rintro ⟨hl, hr, h⟩
    rw [Signature.check_eq_ok_iff.2 hl.symm, Signature.check_eq_ok_iff.2 hr.symm]
    exact h.combine

theorem combine_inner_eq_ok_iff :
    d.combine l r = .ok m ∧ d.inner l r = .ok c ↔ d.Joins l r m c := by
  constructor
  · rintro ⟨hm, hc⟩
    obtain ⟨⟨m', c'⟩, h, hm⟩ := bind_eq_ok.1 hm
    cases hm
    obtain ⟨⟨m'', c''⟩, h', hc⟩ := bind_eq_ok.1 hc
    cases hc
    rw [h] at h'
    cases h'
    exact combineBoth_eq_ok_iff.1 h
  · intro h
    have hb := combineBoth_eq_ok_iff.2 h
    exact ⟨bind_eq_ok.2 ⟨_, hb, rfl⟩, bind_eq_ok.2 ⟨_, hb, rfl⟩⟩

theorem exists_joins (hm : signatureOf m = d.result) (hc : signatureOf c = d.consumed) :
    ∃ l r, d.Joins l r m c := by
  obtain ⟨l, r, hl, hr, h⟩ := exists_joined d.merges hm hc
  exact ⟨l, r, hl, hr, h⟩

theorem split_eq_ok_iff : d.split m c = .ok (l, r) ↔ d.Joins l r m c := by
  unfold split
  constructor
  · intro h
    obtain ⟨_, hm, h⟩ := bind_eq_ok.1 h
    obtain ⟨_, hc, h⟩ := bind_eq_ok.1 h
    obtain ⟨l', r', hj⟩ := exists_joins (Signature.check_eq_ok_iff.1 hm).symm
      (Signature.check_eq_ok_iff.1 hc).symm
    rw [hj.2.2.split] at h
    cases h
    exact hj
  · intro h
    rw [Signature.check_eq_ok_iff.2 h.signatureOf_merged.symm,
      Signature.check_eq_ok_iff.2 h.signatureOf_inner.symm]
    exact h.2.2.split

theorem combine_eq_ok_iff : d.combine l r = .ok m ↔ ∃ c, d.Joins l r m c := by
  constructor
  · intro h
    obtain ⟨⟨m', c⟩, hb, h⟩ := bind_eq_ok.1 h
    cases h
    exact ⟨c, combineBoth_eq_ok_iff.1 hb⟩
  · rintro ⟨c, h⟩
    exact (combine_inner_eq_ok_iff.2 h).1

/-- What can be merged is found again by taking the merged list apart, and any lists of
the merged signatures can be taken apart and are found again by merging. -/
theorem split_inverse (d : Merge) :
    (∀ l r m : List α, d.combine l r = .ok m →
      ∃ c, d.inner l r = .ok c ∧ d.split m c = .ok (l, r)) ∧
    ∀ m c : List α, signatureOf m = d.result → signatureOf c = d.consumed →
      ∃ l r, d.split m c = .ok (l, r) ∧ signatureOf l = d.left ∧ signatureOf r = d.right ∧
        d.combine l r = .ok m ∧ d.inner l r = .ok c := by
  constructor
  · intro l r m h
    obtain ⟨c, hj⟩ := combine_eq_ok_iff.1 h
    exact ⟨c, (combine_inner_eq_ok_iff.2 hj).2, split_eq_ok_iff.2 hj⟩
  · intro m c hm hc
    obtain ⟨l, r, hj⟩ := exists_joins hm hc
    exact ⟨l, r, split_eq_ok_iff.2 hj, hj.1, hj.2.1, combine_inner_eq_ok_iff.2 hj⟩

/-- Operands that name their buffers and extents by reference. Both sides read the first
array, the left one writes two that the right one reads, and a scalar is for the right
one only. -/
theorem split_inverse_operands :
    let v : Ty := .array 1 (.int 64)
    let buffer (i : Nat) : Ref := ⟨i, v⟩
    let n : Ref := ⟨9, .size⟩
    let l : List Operand := [.input [n] (buffer 0), .output [n] (buffer 1), .output [n] (buffer 2)]
    let r : List Operand :=
      [.input [n] (buffer 0), .scalar n, .input [n] (buffer 1), .input [n] (buffer 2)]
    let m : List Operand := [.input [n] (buffer 0), .scalar n, .output [n] (buffer 2)]
    ∃ d, of? [.shared, .rightOnly, .consumed, .kept] (signatureOf l) (signatureOf r) = .ok d ∧
      d.combine l r = .ok m ∧ (∃ c, d.inner l r = .ok c ∧ d.split m c = .ok (l, r)) ∧
      ∃ l' r', d.split m [.output [n] (buffer 1)] = .ok (l', r') ∧ signatureOf l' = d.left ∧
        signatureOf r' = d.right ∧ d.combine l' r' = .ok m ∧
        d.inner l' r' = .ok [.output [n] (buffer 1)] := by
  intro v buffer n l r m
  exact ⟨_, rfl, rfl, (split_inverse _).1 l r m rfl, (split_inverse _).2 m _ rfl rfl⟩

end Merge

end ArrayFusion

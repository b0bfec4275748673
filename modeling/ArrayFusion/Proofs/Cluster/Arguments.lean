import ArrayFusion.Actual
import ArrayFusion.Cluster.Arguments
import ArrayFusion.Kernel
import ArrayFusion.Proofs.Merge.Joining
import ArrayFusion.Proofs.Permutation.Bijection
set_option autoImplicit false

/-!
The argument lists of a cluster and those of its leaves. `Carries` relates the
two without a direction; gathering goes from the leaves up and distributing from
the root down, and both find exactly the lists that the relation allows.
-/

namespace ArrayFusion

def Kernel.copy (rank : Nat) (t : Ty) : Kernel :=
  .map rank t t (.unary t (.var ⟨0, t⟩))

namespace Cluster

variable {Op α : Type} [Argument α]

/-- The external arguments and the intermediates of a cluster reach its leaves
as the given lists. -/
inductive Carries : Cluster Op → List α → List α → List (List α) → Prop where
  | leaf {op : Op} {perm : Permutation} {args natural : List α} :
      perm.apply args = .ok natural → Carries (.leaf op perm) args [] [natural]
  | branch {l r : Cluster Op} {d : Merge} {la ra args own il ir : List α}
      {ll rl : List (List α)} : d.Joins la ra args own →
      Carries l la il ll → Carries r ra ir rl →
      Carries (.branch l r d) args (own ++ il ++ ir) (ll ++ rl)

namespace Carries

variable {c : Cluster Op} {args inner : List α} {lists : List (List α)}

theorem length_lists (h : Carries c args inner lists) : lists.length = c.leafCount := by
  induction h with
  | leaf _ => rfl
  | branch _ _ _ hl hr => rw [List.length_append, hl, hr, leafCount]

theorem signatureOf_inner (h : Carries c args inner lists) :
    signatureOf inner = c.intermediates := by
  induction h with
  | leaf _ => rfl
  | branch hd _ _ hl hr =>
    rw [intermediates, ← hl, ← hr, ← hd.signatureOf_inner]
    simp [signatureOf]

theorem signatureOf_args [LawfulArgument α] (h : Carries c args inner lists) :
    signatureOf args = c.external := by
  cases h with
  | leaf h => exact (Permutation.apply_eq_ok_iff.1 h).1.symm
  | branch hd _ _ => exact hd.signatureOf_merged

theorem map_signatureOf [Operation Op] (hc : c.WellFormed) (h : Carries c args inner lists) :
    lists.map signatureOf = c.leaves.map Operation.signature := by
  induction h with
  | leaf h =>
    obtain ⟨hs, rfl⟩ := Permutation.apply_eq_ok_iff.1 h
    simp only [List.map_cons, List.map_nil, leaves, Permutation.signatureOf_reorder, ← hs]
    exact congrArg (· :: []) hc
  | branch _ _ _ hl hr =>
    obtain ⟨_, _, hcl, hcr⟩ := hc
    simp only [leaves, List.map_append, hl hcl, hr hcr]

end Carries

section Gather

variable [Operation Op] [LawfulArgument α]

theorem Carries.gather {c : Cluster Op} {args inner : List α} {lists : List (List α)}
    (h : Carries c args inner lists) (rest : List (List α)) :
    c.gather (lists ++ rest) = .ok ⟨args, inner, rest⟩ := by
  induction h generalizing rest with
  | leaf h =>
    simp only [List.cons_append, List.nil_append, Cluster.gather,
      Permutation.apply_invert_eq_ok_iff.2 h]
    rfl
  | branch hd _ _ hl hr =>
    obtain ⟨hm, hi⟩ := Merge.combine_inner_eq_ok_iff.2 hd
    simp only [List.append_assoc, Cluster.gather, hl, hr, bind, Except.bind, hm, hi]

theorem carries_of_gather {c : Cluster Op} {lists : List (List α)} {g : Gathered α}
    (h : c.gather lists = .ok g) :
    ∃ own, lists = own ++ g.rest ∧ Carries c g.external g.inner own := by
  induction c generalizing lists g with
  | leaf op perm =>
    cases lists with
    | nil => cases h
    | cons natural rest =>
      obtain ⟨args, ha, hg⟩ := bind_eq_ok.1 h
      cases hg
      exact ⟨[natural], rfl, .leaf (Permutation.apply_invert_eq_ok_iff.1 ha)⟩
  | branch l r d hl hr =>
    obtain ⟨gl, h₁, h⟩ := bind_eq_ok.1 h
    obtain ⟨gr, h₂, h⟩ := bind_eq_ok.1 h
    obtain ⟨merged, hm, h⟩ := bind_eq_ok.1 h
    obtain ⟨inner, hi, h⟩ := bind_eq_ok.1 h
    cases h
    obtain ⟨ll, rfl, hcl⟩ := hl h₁
    obtain ⟨rl, hrest, hcr⟩ := hr h₂
    exact ⟨ll ++ rl, by rw [hrest, List.append_assoc],
      .branch (Merge.combine_inner_eq_ok_iff.1 ⟨hm, hi⟩) hcl hcr⟩

theorem combineArguments_eq_ok_iff {c : Cluster Op} {args inner : List α}
    {lists : List (List α)} :
    c.combineArguments lists = .ok (args, inner) ↔ Carries c args inner lists := by
  constructor
  · intro h
    obtain ⟨g, hg, hr⟩ := bind_eq_ok.1 h
    obtain ⟨own, rfl, hc⟩ := carries_of_gather hg
    split at hr
    · rename_i he
      cases hr
      rw [List.isEmpty_iff.1 he, List.append_nil]
      exact hc
    · cases hr
  · intro h
    have hg := h.gather []
    rw [List.append_nil] at hg
    exact bind_eq_ok.2 ⟨_, hg, rfl⟩

end Gather

section Distribute

variable [LawfulArgument α]

theorem Carries.distribute {c : Cluster Op} {args inner : List α} {lists : List (List α)}
    (h : Carries c args inner lists) (rest : List α) :
    c.distribute args (inner ++ rest) = .ok (lists, rest) := by
  induction h generalizing rest with
  | leaf h =>
    simp only [Cluster.distribute, h]
    rfl
  | @branch l r d la ra args own il ir ll rl hd _ _ hl hr =>
    have hn : d.consumed.length = own.length := by
      rw [← hd.signatureOf_inner, length_signatureOf]
    have hlt : ¬ (own ++ (il ++ (ir ++ rest))).length < own.length := by
      rw [List.length_append]
      omega
    simp only [Cluster.distribute, hn, if_neg hlt, List.append_assoc, List.take_left,
      List.drop_left, Merge.split_eq_ok_iff.2 hd, bind, Except.bind, hl, hr]

theorem carries_of_distribute {c : Cluster Op} {args inner rest : List α}
    {lists : List (List α)} (h : c.distribute args inner = .ok (lists, rest)) :
    ∃ own, inner = own ++ rest ∧ Carries c args own lists := by
  induction c generalizing args inner rest lists with
  | leaf op perm =>
    obtain ⟨natural, ha, h⟩ := bind_eq_ok.1 h
    cases h
    exact ⟨[], rfl, .leaf ha⟩
  | branch l r d hl hr =>
    simp only [Cluster.distribute] at h
    split at h
    · cases h
    · obtain ⟨⟨la, ra⟩, hd, h⟩ := bind_eq_ok.1 h
      obtain ⟨⟨ll, others⟩, h₁, h⟩ := bind_eq_ok.1 h
      obtain ⟨⟨rl, last⟩, h₂, h⟩ := bind_eq_ok.1 h
      cases h
      obtain ⟨il, hil, hcl⟩ := hl h₁
      obtain ⟨ir, rfl, hcr⟩ := hr h₂
      refine ⟨inner.take d.consumed.length ++ il ++ ir, ?_,
        .branch (Merge.split_eq_ok_iff.1 hd) hcl hcr⟩
      rw [List.append_assoc, List.append_assoc, ← hil, List.take_append_drop]

theorem exists_carries [Operation Op] {c : Cluster Op} (hc : c.WellFormed) {args inner : List α}
    (ha : signatureOf args = c.external) (hi : signatureOf inner = c.intermediates) :
    ∃ lists, Carries c args inner lists := by
  induction c generalizing args inner with
  | leaf op perm =>
    obtain rfl := signatureOf_eq_nil hi
    exact ⟨_, .leaf (Permutation.apply_eq_ok_iff.2 ⟨ha.symm, rfl⟩)⟩
  | branch l r d hl hr =>
    obtain ⟨hdl, hdr, hcl, hcr⟩ := hc
    obtain ⟨front, ir, rfl, hf, hir⟩ := List.map_eq_append_iff.1 hi
    obtain ⟨own, il, rfl, ho, hil⟩ := List.map_eq_append_iff.1 hf
    obtain ⟨la, ra, hd⟩ := Merge.exists_joins (d := d) ha ho
    obtain ⟨ll, hll⟩ := hl hcl (hd.1.trans hdl) hil
    obtain ⟨rl, hrl⟩ := hr hcr (hd.2.1.trans hdr) hir
    exact ⟨ll ++ rl, .branch hd hll hrl⟩

theorem leafArguments_eq_ok_iff [Operation Op] {c : Cluster Op} (hc : c.WellFormed)
    {args inner : List α} {lists : List (List α)} :
    c.leafArguments args inner = .ok lists ↔ Carries c args inner lists := by
  constructor
  · intro h
    obtain ⟨_, ha, h⟩ := bind_eq_ok.1 h
    obtain ⟨_, hi, h⟩ := bind_eq_ok.1 h
    obtain ⟨lists', hcar⟩ := exists_carries hc (Signature.check_eq_ok_iff.1 ha).symm
      (Signature.check_eq_ok_iff.1 hi).symm
    have hd := hcar.distribute []
    rw [List.append_nil] at hd
    rw [hd] at h
    cases h
    exact hcar
  · intro h
    have hd := h.distribute []
    rw [List.append_nil] at hd
    simp only [leafArguments, Signature.check_eq_ok_iff.2 h.signatureOf_args.symm,
      Signature.check_eq_ok_iff.2 h.signatureOf_inner.symm, hd, bind, Except.bind]

end Distribute

/-- Gathering and distributing undo each other, and distributing never fails on
arguments of the signatures of the cluster. -/
theorem leafArguments_inverse [Operation Op] [LawfulArgument α] (c : Cluster Op)
    (hc : c.WellFormed) :
    (∀ (lists : List (List α)) (args inner : List α),
      c.combineArguments lists = .ok (args, inner) →
      signatureOf args = c.external ∧ signatureOf inner = c.intermediates ∧
        c.leafArguments args inner = .ok lists) ∧
    (∀ args inner : List α,
      signatureOf args = c.external → signatureOf inner = c.intermediates →
      ∃ lists, c.leafArguments args inner = .ok lists ∧
        lists.map signatureOf = c.leaves.map Operation.signature ∧
        c.combineArguments lists = .ok (args, inner)) := by
  constructor
  · intro lists args inner h
    have hcar := combineArguments_eq_ok_iff.1 h
    exact ⟨hcar.signatureOf_args, hcar.signatureOf_inner, (leafArguments_eq_ok_iff hc).2 hcar⟩
  · intro args inner ha hi
    obtain ⟨lists, hcar⟩ := exists_carries hc ha hi
    exact ⟨lists, (leafArguments_eq_ok_iff hc).2 hcar, hcar.map_signatureOf hc,
      combineArguments_eq_ok_iff.2 hcar⟩

/-- Two copies in a row, the second of which names its output first. -/
theorem leafArguments_inverse_reordered :
    let v : Ty := .array 1 (.int 64)
    let lists := [[Actual.input ⟨0⟩ v, .output ⟨1⟩ v], [.input ⟨1⟩ v, .output ⟨2⟩ v]]
    ∃ r c : Cluster Kernel, reordered (.copy 1 (.int 64)) [1, 0] = .ok r ∧
      fuse (single (.copy 1 (.int 64))) r [.leftOnly, .rightOnlyOut, .consumed] = .ok c ∧
      c.WellFormed ∧
      c.combineArguments lists = .ok ([.input ⟨0⟩ v, .output ⟨2⟩ v], [.output ⟨1⟩ v]) ∧
      c.leafArguments [.input ⟨0⟩ v, .output ⟨2⟩ v] [.output ⟨1⟩ v] = .ok lists := by
  intro v lists
  refine ⟨_, _, rfl, rfl, ?hc, rfl, ((leafArguments_inverse _ ?hc).1 _ _ _ rfl).2.2⟩
  exact ⟨rfl, rfl, rfl, rfl⟩

end Cluster

end ArrayFusion

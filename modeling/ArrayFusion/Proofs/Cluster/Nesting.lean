import ArrayFusion.Proofs.Merge.Definedness
import ArrayFusion.Proofs.Cluster.Arguments
set_option autoImplicit false

namespace ArrayFusion

namespace Cluster

variable {Op : Type}

theorem fuse_eq_ok_iff {l r c : Cluster Op} {modes : List MergeMode} :
    fuse l r modes = .ok c ↔ ∃ d : Merge, c = .branch l r d ∧ d.modes = modes ∧
      d.left = l.external ∧ d.right = r.external := by
  unfold fuse
  simp only [bind_eq_ok, Merge.of?_eq_ok_iff]
  constructor
  · rintro ⟨d, ⟨hm, hl, hr⟩, hc⟩
    rw [branch?, if_neg (not_not_intro hl), if_neg (not_not_intro hr)] at hc
    cases hc
    exact ⟨d, rfl, hm, hl, hr⟩
  · rintro ⟨d, rfl, hm, hl, hr⟩
    refine ⟨d, ⟨hm, hl, hr⟩, ?_⟩
    rw [branch?, if_neg (not_not_intro hl), if_neg (not_not_intro hr)]

end Cluster

/-- A row of operations put together from one alone or from two rows. -/
inductive Nesting (Op : Type) where
  | one (op : Op)
  | both (left right : Nesting Op)

namespace Nesting

variable {Op : Type}

def ops : Nesting Op → List Op
  | .one op => [op]
  | .both l r => l.ops ++ r.ops

theorem ops_ne_nil (t : Nesting Op) : t.ops ≠ [] := by
  induction t with
  | one op => exact List.cons_ne_nil _ _
  | both l r hl _ => exact fun h => hl (List.append_eq_nil_iff.1 h).1

variable [Operation Op]

/-- Fuses the parts of every row, by modes that their clusters determine. -/
def fuse (modes : Cluster Op → Cluster Op → List MergeMode) :
    Nesting Op → Except Fault (Cluster Op)
  | .one op => .ok (.single op)
  | .both l r => do
    let a ← l.fuse modes
    let b ← r.fuse modes
    Cluster.fuse a b (modes a b)

variable {modes : Cluster Op → Cluster Op → List MergeMode} {l r t : Nesting Op}
  {a b c : Cluster Op}

theorem fuse_both_eq_ok_iff : (both l r).fuse modes = .ok c ↔
    ∃ a b, l.fuse modes = .ok a ∧ r.fuse modes = .ok b ∧ Cluster.fuse a b (modes a b) = .ok c := by
  simp only [fuse, bind_eq_ok]
  constructor
  · rintro ⟨a, ha, b, hb, hc⟩
    exact ⟨a, b, ha, hb, hc⟩
  · rintro ⟨a, b, ha, hb, hc⟩
    exact ⟨a, ha, b, hb, hc⟩

theorem exists_fuse_both {o : Signature} (ha : l.fuse modes = .ok a) (hb : r.fuse modes = .ok b)
    (h : Merges (modes a b) a.external b.external o) :
    ∃ d : Merge, (both l r).fuse modes = .ok (.branch a b d) ∧ d.modes = modes a b ∧
      d.left = a.external ∧ d.right = b.external :=
  ⟨⟨_, _, _, o, h⟩, fuse_both_eq_ok_iff.2
    ⟨a, b, ha, hb, Cluster.fuse_eq_ok_iff.2 ⟨_, rfl, rfl, rfl, rfl⟩⟩, rfl, rfl, rfl⟩

theorem leaves_fuse (h : t.fuse modes = .ok c) : c.leaves = t.ops := by
  induction t generalizing c with
  | one op =>
    cases h
    rfl
  | both l r hl hr =>
    obtain ⟨a, b, ha, hb, hc⟩ := fuse_both_eq_ok_iff.1 h
    obtain ⟨d, rfl, _⟩ := Cluster.fuse_eq_ok_iff.1 hc
    rw [Cluster.leaves, ops, hl ha, hr hb]

theorem wellFormed_fuse (h : t.fuse modes = .ok c) : c.WellFormed := by
  induction t generalizing c with
  | one op =>
    cases h
    exact Cluster.wellFormed_single op
  | both l r hl hr =>
    obtain ⟨a, b, ha, hb, hc⟩ := fuse_both_eq_ok_iff.1 h
    exact Cluster.wellFormed_fuse (hl ha) (hr hb) hc

end Nesting

end ArrayFusion

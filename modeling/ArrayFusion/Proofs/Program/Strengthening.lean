import ArrayFusion.Proofs.Program.Free
set_option autoImplicit false

/-!
Taking a slot away and putting one in. A map that takes back what another one does also
takes it back under binders, and so on whole terms. Strengthening and slot insertion do
this for each other: the terms that lose a slot are those into which it can be put.
-/

namespace ArrayFusion

variable {Op : Type} {m n : Reindexing}

namespace Reindexing

def Undoes (n m : Reindexing) : Prop := ∀ r s, m r = some s → n s = some r

theorem Undoes.sink (h : n.Undoes m) (k : Nat) : (n.sink k).Undoes (m.sink k) := by
  intro r s hs
  by_cases hr : r.index < k
  · cases (sink_of_lt hr).symm.trans hs
    exact sink_of_lt hr
  · have hle := Nat.not_lt.1 hr
    obtain ⟨outer, ho, rfl⟩ := sink_eq_some hs hle
    have hback := h _ _ ho
    have hge : ¬(outer.shifted k).index < k := by simp
    rw [Reindexing.sink, if_neg hge, Ref.lowered_shifted, hback, Option.map_some,
      Ref.shifted_lowered hle]

theorem insertSlot_of_lt {k : Nat} {r : Ref} (h : r.index < k) : insertSlot k r = some r :=
  sink_of_lt h

theorem insertSlot_of_le {k : Nat} {r : Ref} (h : k ≤ r.index) :
    insertSlot k r = some (r.shifted 1) := by
  rw [insertSlot, sink, if_neg (Nat.not_lt.2 h), weaken, Option.map_some, Ref.shifted_shifted,
    Nat.add_comm, ← Ref.shifted_shifted, Ref.shifted_lowered h]

theorem insertSlot_undoes_strengthen (k : Nat) : (insertSlot k).Undoes (strengthen k) := by
  intro r s hs
  unfold strengthen at hs
  split at hs
  · rename_i hlt
    cases hs
    exact insertSlot_of_lt hlt
  · rename_i hlt
    split at hs
    · cases hs
    · rename_i hne
      cases hs
      have hle : k ≤ (r.lowered 1).index := by simp; omega
      rw [insertSlot_of_le hle, Ref.shifted_lowered (by omega)]

theorem strengthen_undoes_insertSlot (k : Nat) : (strengthen k).Undoes (insertSlot k) := by
  intro r s hs
  by_cases hlt : r.index < k
  · cases (insertSlot_of_lt hlt).symm.trans hs
    exact if_pos hlt
  · cases (insertSlot_of_le (Nat.not_lt.1 hlt)).symm.trans hs
    have hge : ¬(r.shifted 1).index < k := by simp; omega
    have hne : (r.shifted 1).index ≠ k := by simp; omega
    rw [strengthen, if_neg hge, if_neg hne, Ref.lowered_shifted]

end Reindexing

section Undo

variable (h : n.Undoes m)

include h

theorem Tuple.Image.undone {t t' : Tuple} (ht : t.Image m t') : t'.Image n t := by
  induction ht with
  | unit => exact .unit
  | ref hr => exact .ref (h _ _ hr)
  | pair _ _ iha ihb => exact .pair iha ihb

theorem Expr.Image.undone {e e' : Expr} (he : e.Image m e') : e'.Image n e := by
  induction he with
  | var => exact .var
  | const => exact .const
  | nil => exact .nil
  | unary _ ih => exact .unary ih
  | fst _ ih => exact .fst ih
  | snd _ ih => exact .snd ih
  | letIn _ _ iha ihb => exact .letIn iha ihb
  | binary _ _ iha ihb => exact .binary iha ihb
  | pair _ _ iha ihb => exact .pair iha ihb
  | cond _ _ _ iha ihb ihc => exact .cond iha ihb ihc
  | read hr _ ih => exact .read (h _ _ hr) ih
  | param hr _ ih => exact .param (h _ _ hr) ih

theorem Fn.Image.undone {f f' : Fn} (hf : f.Image m f') : f'.Image n f := by
  induction hf with
  | lam _ ih => exact .lam ih
  | body he => exact .body (he.undone h)

theorem ImageRefs.undone {rs rs' : List Ref} (hrs : ImageRefs m rs rs') : ImageRefs n rs' rs := by
  induction hrs with
  | nil => exact .nil
  | cons hr _ ih => exact .cons (h _ _ hr) ih

theorem Operand.Image.undone {o o' : Operand} (ho : o.Image m o') : o'.Image n o := by
  cases ho with
  | scalar hr => exact .scalar (h _ _ hr)
  | function hf => exact .function (hf.undone h)
  | input hs hb => exact .input (hs.undone h) (h _ _ hb)
  | output hs hb => exact .output (hs.undone h) (h _ _ hb)

theorem Program.Image.undone {t t' : Program Op} (ht : t.Image m t') : t'.Image n t := by
  induction ht generalizing n with
  | exec ha => exact .exec (ha.flip.imp fun _ _ ho => ho.undone h)
  | ret ht => exact .ret (ht.undone h)
  | compute he => exact .compute (he.undone h)
  | alloc hs => exact .alloc (hs.undone h)
  | @letIn m p a a' b b' _ _ iha ihb => exact .letIn (iha h) (ihb (h.sink p.size))
  | cond hr _ _ iha ihb => exact .cond (h _ _ hr) (iha h) (ihb h)

end Undo

/-- A term loses the slot `k` and becomes another one exactly if the slot, put into the
other one, gives the term back. -/
theorem reindex_strengthen_iff_insertSlot (k : Nat) :
    (∀ t s : Program Op,
      t.reindex (.strengthen k) = some s ↔ s.reindex (.insertSlot k) = some t) ∧
    (∀ e f : Expr, e.reindex (.strengthen k) = some f ↔ f.reindex (.insertSlot k) = some e) ∧
    (∀ f g : Fn, f.reindex (.strengthen k) = some g ↔ g.reindex (.insertSlot k) = some f) ∧
    (∀ o q : Operand, o.reindex (.strengthen k) = some q ↔ q.reindex (.insertSlot k) = some o) ∧
    ∀ t u : Tuple, t.reindex (.strengthen k) = some u ↔ u.reindex (.insertSlot k) = some t := by
  have back := Reindexing.insertSlot_undoes_strengthen k
  have forth := Reindexing.strengthen_undoes_insertSlot k
  simp only [Program.reindex_eq_some_iff, Expr.reindex_eq_some_iff, Fn.reindex_eq_some_iff,
    Operand.reindex_eq_some_iff, Tuple.reindex_eq_some_iff]
  refine ⟨fun t s => ?_, fun e f => ?_, fun f g => ?_, fun o q => ?_, fun t u => ?_⟩
  · exact ⟨.undone back, .undone forth⟩
  · exact ⟨.undone back, .undone forth⟩
  · exact ⟨.undone back, .undone forth⟩
  · exact ⟨.undone back, .undone forth⟩
  · exact ⟨.undone back, .undone forth⟩

end ArrayFusion

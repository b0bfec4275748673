import ArrayFusion.Actual
import ArrayFusion.Proofs.Outcome
import ArrayFusion.Proofs.Permutation.Bijection
set_option autoImplicit false

/-!
Permutations of argument lists as a groupoid. Each acts one to one between the lists of
its source and those of its target, and is undone by its inverse. Composites and inverses
get the one chain that belongs to their mapping, so that the laws hold of the chains
themselves: two such chains that reorder lists alike are equal.
-/

namespace ArrayFusion

namespace Permutation

section Action

variable {α : Type} [Argument α]

theorem checkTakes_eq_ok {source : Signature} {takes : List Nat}
    (h : Takeable source.length takes) : checkTakes source takes = .ok ⟨h⟩ := by
  induction takes generalizing source with
  | nil => rfl
  | cons p ps ih =>
    have hps : Takeable (source.eraseIdx p).length ps := by
      rw [List.length_eraseIdx_of_lt h.1]
      exact h.2
    refine (dif_pos h.1).trans ?_
    rw [ih hps]

theorem ofTakes?_takes (p : Permutation) : ofTakes? p.source p.takes = .ok p := by
  rw [ofTakes?, checkTakes_eq_ok p.takeable]

theorem ofMapping?_eq_ok {source : Signature} {mapping : List Nat}
    (h : mapping.Perm (List.range source.length)) :
    ofMapping? source mapping = .ok (ofMapping source mapping h) := dif_pos h

theorem exists_apply_eq_ok_iff {p : Permutation} {args : List α} :
    (∃ out, p.apply args = .ok out) ↔ signatureOf args = p.source := by
  constructor
  · rintro ⟨out, h⟩
    exact (apply_eq_ok_iff.1 h).1.symm
  · exact fun h => ⟨_, apply_eq_ok_iff.2 ⟨h.symm, rfl⟩⟩

theorem signatureOf_of_apply {p : Permutation} {args out : List α} (h : p.apply args = .ok out) :
    signatureOf out = p.target := by
  obtain ⟨hs, rfl⟩ := apply_eq_ok_iff.1 h
  rw [signatureOf_reorder, ← hs]
  rfl

/-- A permutation takes the lists of its source one to one to those of its target. Each
position gets the element that the mapping says, and the inverse, which is the checked
permutation of the positions, puts it back. -/
theorem acts_bijectively (p : Permutation) :
    ofTakes? p.source p.takes = .ok p ∧ p.mapping.Perm (List.range p.source.length) ∧
    (∀ args : List α, (∃ out, p.apply args = .ok out) ↔ signatureOf args = p.source) ∧
    (∀ args out : List α, p.apply args = .ok out →
      signatureOf out = p.target ∧ (∀ i : Nat, out[i]? = p.mapping[i]?.bind (args[·]?)) ∧
        p.invert.apply out = .ok args) ∧
    ofMapping? p.target p.positions = .ok p.invert ∧ p.invert.source = p.target ∧
    p.invert.target = p.source ∧
    ∀ out : List α, signatureOf out = p.target →
      ∃ args, p.invert.apply out = .ok args ∧ p.apply args = .ok out := by
  refine ⟨p.ofTakes?_takes, p.mapping_perm, fun args => exists_apply_eq_ok_iff,
    fun args out h => ⟨signatureOf_of_apply h, fun i => ?_, apply_invert_eq_ok_iff.2 h⟩,
    ofMapping?_eq_ok _, rfl, p.target_invert, fun out hout => ?_⟩
  · obtain ⟨hs, rfl⟩ := apply_eq_ok_iff.1 h
    refine p.getElem?_reorder_takes ?_ i
    rw [hs, length_signatureOf]
  · obtain ⟨args, h⟩ := exists_apply_eq_ok_iff.2 (hout.trans p.source_invert.symm)
    exact ⟨args, h, apply_invert_eq_ok_iff.1 h⟩

/-- Two arguments that look alike make room for a third one. -/
theorem acts_bijectively_alike :
    let v : Ty := .array 1 (.int 64)
    let args := [Actual.input ⟨0⟩ v, .input ⟨1⟩ v, .output ⟨2⟩ v]
    let out := [Actual.output ⟨2⟩ v, .input ⟨0⟩ v, .input ⟨1⟩ v]
    ∃ p, ofTakes? (signatureOf args) [2] = .ok p ∧ p.mapping = [2, 0, 1] ∧
      p.apply args = .ok out ∧ p.invert.takes = [1, 1] ∧ p.invert.apply out = .ok args ∧
      ∃ l, p.invert.apply out = .ok l ∧ p.apply l = .ok out := by
  intro v args out
  have hboth := acts_bijectively (α := Actual) ⟨signatureOf args, [2], by decide, trivial⟩
  obtain ⟨hchecked, _, _, hforth, _, _, _, hback⟩ := hboth
  exact ⟨_, hchecked, rfl, rfl, rfl, (hforth args out rfl).2.2, hback out rfl⟩

end Action

section Canonical

def Canonical (p : Permutation) : Prop := ofMapping p.source p.mapping p.mapping_perm = p

theorem canonical_ofMapping {source : Signature} {mapping : List Nat}
    (h : mapping.Perm (List.range source.length)) : (ofMapping source mapping h).Canonical := by
  unfold Canonical
  congr 1
  exact mapping_ofMapping h

theorem canonical_invert (p : Permutation) : p.invert.Canonical := canonical_ofMapping _

theorem takesOf_self (l : List Nat) : takesOf l l = List.replicate l.length 0 := by
  induction l with
  | nil => rfl
  | cons n l ih =>
    rw [takesOf, List.idxOf_cons_self, List.erase_cons_head, ih]
    rfl

theorem dropFinalHeads_replicate (n : Nat) : dropFinalHeads (List.replicate n 0) = [] := by
  induction n with
  | zero => rfl
  | succ n ih => simp [List.replicate_succ, dropFinalHeads, ih]

theorem eq_of_takes {p q : Permutation} (hs : p.source = q.source) (ht : p.takes = q.takes) :
    p = q := by
  cases p ; cases q
  simp_all

theorem canonical_identity (source : Signature) : (identity source).Canonical := by
  refine eq_of_takes rfl ?_
  change dropFinalHeads (takesOf (List.range source.length) (List.range source.length)) = []
  rw [takesOf_self, dropFinalHeads_replicate]

/-- Canonical chains are equal if they reorder lists alike. -/
theorem Canonical.eq_of_reorder {p q : Permutation} (hp : p.Canonical) (hq : q.Canonical)
    (hs : p.source = q.source)
    (h : ∀ l : List Nat, l.length = q.source.length → reorder p.takes l = reorder q.takes l) :
    p = q := by
  have hm : p.mapping = q.mapping := by
    rw [mapping, mapping, hs]
    exact h _ List.length_range
  rw [← hp, ← hq]
  congr 1

end Canonical

section Compose

variable {p q r c d s : Permutation}

/-- What composing gives: the canonical chain that reorders by `q` and then by `p`. -/
structure Composite (p q c : Permutation) : Prop where
  composable : p.source = q.target
  canonical : c.Canonical
  source : c.source = q.source
  reorders : ∀ {α : Type} (l : List α), l.length = q.source.length →
    reorder c.takes l = reorder p.takes (reorder q.takes l)

theorem reorder_ofMapping {source : Signature} {mapping : List Nat}
    (h : mapping.Perm (List.range source.length)) {α : Type} {l : List α}
    (hl : l.length = source.length) (i : Nat) :
    (reorder (ofMapping source mapping h).takes l)[i]? = mapping[i]?.bind (l[·]?) := by
  rw [getElem?_reorder_takes _ hl, mapping_ofMapping]

theorem composite_compose (hs : p.source = q.target) :
    ∃ c, compose p q = .ok c ∧ Composite p q c := by
  have hp : p.source.length = q.source.length := by rw [hs, length_target]
  refine ⟨_, if_pos hs, hs, canonical_ofMapping _, rfl, fun {α} l hl => ?_⟩
  apply List.ext_getElem?
  intro i
  rw [reorder_ofMapping _ hl, p.getElem?_reorder_takes (by simp [hp]),
    p.getElem?_reorder_takes (by simp [hl, hp]), Option.bind_assoc]
  congr 1
  funext j
  exact (q.getElem?_reorder_takes hl j).symm

theorem Composite.unique (h : Composite p q c) (h' : Composite p q d) : c = d := by
  refine h.canonical.eq_of_reorder h'.canonical (h.source.trans h'.source.symm) fun l hl => ?_
  have hl : l.length = q.source.length := by rw [hl, h'.source]
  rw [h.reorders l hl, h'.reorders l hl]

theorem compose_eq_ok_iff : compose p q = .ok c ↔ Composite p q c := by
  constructor
  · intro h
    obtain ⟨hs, _⟩ := ite_eq_ok.1 h
    obtain ⟨d, hd, hpq⟩ := composite_compose hs
    cases hd.symm.trans h
    exact hpq
  · intro h
    obtain ⟨d, hd, hpq⟩ := composite_compose h.composable
    rw [hd, h.unique hpq]

theorem exists_compose_eq_ok_iff : (∃ c, compose p q = .ok c) ↔ p.source = q.target := by
  constructor
  · rintro ⟨c, h⟩
    exact (compose_eq_ok_iff.1 h).composable
  · intro hs
    obtain ⟨c, hc, _⟩ := composite_compose hs
    exact ⟨c, hc⟩

namespace Composite

theorem target (h : Composite p q c) : c.target = p.target := by
  calc c.target = reorder c.takes q.source := congrArg _ h.source
    _ = reorder p.takes q.target := h.reorders _ rfl
    _ = p.target := by rw [← h.composable] ; rfl

theorem length_source (h : Composite p q c) : p.source.length = q.source.length := by
  rw [h.composable, length_target]

theorem apply {α : Type} [Argument α] (h : Composite p q c) {args : List α}
    (hs : signatureOf args = q.source) :
    ∃ mid out, q.apply args = .ok mid ∧ p.apply mid = .ok out ∧ c.apply args = .ok out := by
  obtain ⟨mid, hmid⟩ := exists_apply_eq_ok_iff.2 hs
  obtain ⟨out, hout⟩ :=
    exists_apply_eq_ok_iff.2 ((signatureOf_of_apply hmid).trans h.composable.symm)
  obtain ⟨_, rfl⟩ := apply_eq_ok_iff.1 hmid
  obtain ⟨_, rfl⟩ := apply_eq_ok_iff.1 hout
  have hl : args.length = q.source.length := by rw [← hs, length_signatureOf]
  exact ⟨_, _, hmid, hout, apply_eq_ok_iff.2 ⟨h.source.trans hs.symm, (h.reorders args hl).symm⟩⟩

theorem invert (h : Composite p q c) : Composite q.invert p.invert c.invert where
  composable := h.composable.symm.trans p.target_invert.symm
  canonical := c.canonical_invert
  source := h.target
  reorders := by
    intro α l hl
    have hp : l.length = p.source.length := by simpa using hl
    have hq : l.length = q.source.length := hp.trans h.length_source
    let back := reorder q.invert.takes (reorder p.invert.takes l)
    have hback : reorder c.takes back = l := by
      rw [h.reorders back (by simpa [back] using hq), q.reorder_reorder_invert (by simpa using hq),
        p.reorder_reorder_invert hp]
    calc reorder c.invert.takes l = reorder c.invert.takes (reorder c.takes back) := by rw [hback]
      _ = back := c.reorder_invert_reorder (by simpa [back, h.source] using hq)

theorem invert_self (p : Permutation) : Composite p.invert p (identity p.source) where
  composable := rfl
  canonical := canonical_identity p.source
  source := rfl
  reorders := fun _ hl => (p.reorder_invert_reorder hl).symm

theorem assoc (hc : Composite p q c) (hs : Composite c r s) (hd : Composite q r d) :
    Composite p d s where
  composable := hc.composable.trans hd.target.symm
  canonical := hs.canonical
  source := hs.source.trans hd.source.symm
  reorders := by
    intro α l hl
    rw [hd.source] at hl
    have hr : (reorder r.takes l).length = q.source.length := by
      rw [length_reorder, hl, hd.length_source]
    rw [hs.reorders l hl, hc.reorders _ hr, hd.reorders l hl]

theorem assoc_symm (hd : Composite q r d) (hs : Composite p d s) (hc : Composite p q c) :
    Composite c r s where
  composable := hc.source.trans hd.composable
  canonical := hs.canonical
  source := hs.source.trans hd.source
  reorders := by
    intro α l hl
    have hr : (reorder r.takes l).length = q.source.length := by
      rw [length_reorder, hl, hd.length_source]
    rw [hs.reorders l (hl.trans (congrArg _ hd.source.symm)), hd.reorders l hl, hc.reorders _ hr]

end Composite

theorem compose_assoc : (compose p q >>= (compose · r)) = .ok s ↔
    (compose q r >>= (compose p ·)) = .ok s := by
  simp only [bind_eq_ok, compose_eq_ok_iff]
  constructor
  · rintro ⟨c, hc, hs⟩
    obtain ⟨d, _, hd⟩ := composite_compose (hc.source.symm.trans hs.composable)
    exact ⟨d, hd, hc.assoc hs hd⟩
  · rintro ⟨d, hd, hs⟩
    obtain ⟨c, _, hc⟩ := composite_compose (hs.composable.trans hd.target)
    exact ⟨c, hc, hd.assoc_symm hs hc⟩

/-- Permutations compose where they meet, to one that acts as both in a row. Composing is
associative, an inverse takes back what it inverts, and a composite is inverted from its
last step on, all of it down to the chains. -/
theorem compose_groupoid {α : Type} [Argument α] (p q r : Permutation) :
    ((∃ c, compose p q = .ok c) ↔ p.source = q.target) ∧
    (∀ c, compose p q = .ok c → c.source = q.source ∧ c.target = p.target ∧
      (∀ args : List α, signatureOf args = q.source →
        ∃ mid out, q.apply args = .ok mid ∧ p.apply mid = .ok out ∧ c.apply args = .ok out) ∧
      compose q.invert p.invert = .ok c.invert) ∧
    (∀ s, (compose p q >>= (compose · r)) = .ok s ↔ (compose q r >>= (compose p ·)) = .ok s) ∧
    compose p.invert p = .ok (identity p.source) := by
  refine ⟨exists_compose_eq_ok_iff, fun c h => ?_, fun s => compose_assoc,
    compose_eq_ok_iff.2 (.invert_self p)⟩
  have hc := compose_eq_ok_iff.1 h
  exact ⟨hc.source, hc.target, fun args => hc.apply, compose_eq_ok_iff.2 hc.invert⟩

/-- Rotations of three arguments. Two to the right are one to the left, and with one to
the left before them one to the right is left. -/
theorem compose_groupoid_rotations :
    let v : Ty := .array 1 (.int 64)
    let i : Param := ⟨.input, v⟩
    let o : Param := ⟨.output, v⟩
    let args := [Actual.input ⟨0⟩ v, .input ⟨1⟩ v, .output ⟨2⟩ v]
    let q : Permutation := ⟨[i, i, o], [2], by decide, trivial⟩
    let p : Permutation := ⟨[o, i, i], [2], by decide, trivial⟩
    let r : Permutation := ⟨[o, i, i], [1, 1], by decide, by decide, trivial⟩
    ∃ c s, compose p q = .ok c ∧ c.takes = [1, 1] ∧
      c.apply args = .ok [.input ⟨1⟩ v, .output ⟨2⟩ v, .input ⟨0⟩ v] ∧
      signatureOf args = q.source ∧
      (∃ mid out, q.apply args = .ok mid ∧ p.apply mid = .ok out ∧ c.apply args = .ok out) ∧
      compose q.invert p.invert = .ok c.invert ∧
      compose c r = .ok s ∧ s.takes = [2] ∧ (compose q r >>= (compose p ·)) = .ok s ∧
      compose p.invert p = .ok (identity p.source) := by
  intro v i o args q p r
  obtain ⟨_, hcomposed, hassoc, hself⟩ := compose_groupoid (α := Actual) p q r
  obtain ⟨_, _, hacts, hinvert⟩ := hcomposed _ rfl
  exact ⟨_, _, rfl, rfl, rfl, rfl, hacts args rfl, hinvert, rfl, rfl, (hassoc _).1 rfl, hself⟩

end Compose

end Permutation

end ArrayFusion

import ArrayFusion.Program.Binding
import ArrayFusion.Proofs.Pattern.Restricting
import ArrayFusion.Proofs.Program.Composition
import ArrayFusion.Proofs.Program.Occurrences
set_option autoImplicit false

/-!
Slots that a binding loses because its body does not use them. They go one after the other,
and the others change their places meanwhile, but in the end it is as if all of them had
gone at once: the slots that are left are the used ones, and none of those goes later on.
-/

namespace ArrayFusion

variable {Op : Type}

namespace Program

def uses (t : Program Op) (k : Nat) : Bool := t.refs.any (·.index == k)

theorem uses_iff {t : Program Op} {k : Nat} : t.uses k ↔ ∃ r ∈ t.refs, r.index = k := by
  simp [uses]

section Keep

variable {t t' : Program Op} {kept : Nat → Bool} {k : Nat}

theorem uses_eq_false_of_reindex_keep (h : t.reindex (.keep kept) = some t')
    (hk : kept k = false) : t.uses k = false := by
  rw [Bool.eq_false_iff]
  intro hu
  obtain ⟨r, hr, rfl⟩ := uses_iff.1 hu
  have hnone : t.reindex (.keep kept) = none :=
    reindex_eq_none_iff.2 ⟨r, hr, by simp [Reindexing.keep, hk]⟩
  rw [hnone] at h
  cases h

theorem uses_rank (h : t.reindex (.keep kept) = some t') (hk : kept k) :
    t'.uses (rank kept k) = t.uses k := by
  rw [Bool.eq_iff_iff, uses_iff, uses_iff]
  constructor
  · rintro ⟨s, hs, hrank⟩
    obtain ⟨r, hr, hrs⟩ := (mem_refs_reindex h).1 hs
    simp only [Reindexing.keep, Option.ite_none_right_eq_some, Option.some.injEq] at hrs
    obtain ⟨hkept, rfl⟩ := hrs
    exact ⟨r, hr, eq_of_rank_eq hkept hk hrank⟩
  · rintro ⟨r, hr, rfl⟩
    exact ⟨⟨rank kept r.index, r.ty⟩, (mem_refs_reindex h).2 ⟨r, hr, by simp [Reindexing.keep, hk]⟩,
      rfl⟩

theorem uses_of_reindex_keep_eq_none (h : t.reindex (.keep (· != k)) = none) : t.uses k := by
  obtain ⟨r, hr, hnone⟩ := reindex_eq_none_iff.1 h
  refine uses_iff.2 ⟨r, hr, ?_⟩
  simpa [Reindexing.keep] using hnone

end Keep

/-- The slots under the binder that have to stay: the pattern's own if the body uses them,
and all those of the environment around it. -/
def needs (p : Pattern) (body : Program Op) (i : Nat) : Bool := decide (p.size ≤ i) || body.uses i

theorem needs_of_lt {p : Pattern} {body : Program Op} {i : Nat} (h : i < p.size) :
    body.needs p i = body.uses i := by
  simp [needs, h]

theorem needs_of_le {p : Pattern} {body : Program Op} {i : Nat} (h : p.size ≤ i) :
    body.needs p i := by
  simp [needs, h]

theorem needs_of_forall {p : Pattern} {body : Program Op} (h : ∀ i < p.size, body.uses i)
    (i : Nat) : body.needs p i := by
  by_cases hi : i < p.size
  · rw [needs_of_lt hi]
    exact h i hi
  · exact needs_of_le (Nat.not_lt.1 hi)

theorem restrict_needs (p : Pattern) (body : Program Op) :
    p.restrict (body.needs p) = p.restrict body.uses :=
  Pattern.restrict_congr fun _ hi => needs_of_lt hi

section Sweep

variable {p : Pattern} {body body' : Program Op} {k : Nat}

/-- What has to stay once slot `k` has gone is what had to stay before. -/
theorem needs_dropped (hk : k < p.size) (h : body.reindex (.keep (· != k)) = some body') (i : Nat) :
    ((i != k) && body'.needs (p.restrict (· != k)) (rank (· != k) i)) = body.needs p i := by
  by_cases hi : i = k
  · subst hi
    have hunused := uses_eq_false_of_reindex_keep h (bne_self_eq_false i)
    simp [needs_of_lt hk, hunused]
  · have hkept : (i != k) = true := bne_iff_ne.2 hi
    have huses : body'.uses (rank (· != k) i) = body.uses i := uses_rank h hkept
    by_cases hle : p.size ≤ i
    · have hbelow : (p.restrict (· != k)).size ≤ rank (· != k) i := by
        rw [Pattern.size_restrict]
        exact rank_le _ hle
      simp [needs_of_le hle, needs_of_le hbelow, hi]
    · have hlt := Nat.not_le.1 hle
      have habove : rank (· != k) i < (p.restrict (· != k)).size := by
        rw [Pattern.size_restrict]
        exact rank_lt hkept hlt
      rw [needs_of_lt hlt, needs_of_lt habove, huses, hkept, Bool.true_and]

/-- A sweep that has come to slot `kept` leaves exactly the used slots, if all slots above
are used. -/
theorem sweep_eq {todo kept : Nat} (hkept : ∀ i < kept, body.uses i)
    (hsize : kept + todo = p.size) :
    ∃ body', body.reindex (.keep (body.needs p)) = some body' ∧
      sweep todo kept p body = (p.restrict body.uses, body') := by
  induction todo generalizing kept p body with
  | zero =>
    have hall : ∀ i < p.size, body.uses i := fun i hi => hkept i (by omega)
    refine ⟨body, ?_, ?_⟩
    · rw [Reindexing.keep_of_forall (needs_of_forall hall), reindex_weaken_zero]
    · rw [sweep, Pattern.restrict_of_forall hall]
  | succ todo ih =>
    have hlt : kept < p.size := by omega
    have hbelow : ∀ i, p.size ≤ i → (i != kept) = true := fun i hi => by simp; omega
    simp only [sweep, Pattern.dropSlot?_eq_restrict hlt, Reindexing.underRebuilt_restrict hbelow]
    cases hb : body.reindex (.keep (· != kept)) with
    | none =>
      -- The slot is used, and so will it be after others have gone.
      refine ih (fun i hi => ?_) (by omega)
      rcases Nat.lt_succ_iff_lt_or_eq.1 hi with hi | rfl
      · exact hkept i hi
      · exact uses_of_reindex_keep_eq_none hb
    | some dropped =>
      -- The next slot comes into the place of this one; those above stay where they are.
      have hrank : ∀ i ≤ kept, rank (· != kept) i = i := fun i hi =>
        rank_eq_self_iff.2 fun j hj => by simp; omega
      have hsize' : kept + todo = (p.restrict (· != kept)).size := by
        have := Pattern.size_dropSlot? (Pattern.dropSlot?_eq_restrict hlt)
        omega
      have hkept' : ∀ i < kept, dropped.uses i := fun i hi => by
        have huses : dropped.uses (rank (· != kept) i) = body.uses i :=
          uses_rank hb (by simp; omega)
        rw [hrank i (by omega)] at huses
        rw [huses]
        exact hkept i hi
      obtain ⟨body', hbody', hsweep⟩ := ih hkept' hsize'
      have hneeds := funext (needs_dropped hlt hb)
      refine ⟨body', ?_, ?_⟩
      · rw [← hneeds, ← Reindexing.keep_andThen_keep, reindex_andThen, hb, Option.bind_some, hbody']
      · change sweep todo kept (p.restrict (· != kept)) dropped = _
        rw [hsweep, ← restrict_needs, Pattern.restrict_restrict, hneeds, restrict_needs]

theorem sweep_of_uses (h : ∀ i < p.size, body.uses i) : sweep p.size 0 p body = (p, body) := by
  obtain ⟨body', hb, hsweep⟩ := @sweep_eq _ p body p.size 0 (fun _ hi => by omega) (by omega)
  rw [Reindexing.keep_of_forall (needs_of_forall h), reindex_weaken_zero] at hb
  cases hb
  rw [hsweep, Pattern.restrict_of_forall h]

theorem uses_of_lt_size (hb : body.reindex (.keep (body.needs p)) = some body')
    {i : Nat} (hi : i < (p.restrict body.uses).size) : body'.uses i := by
  rw [← restrict_needs, Pattern.size_restrict] at hi
  obtain ⟨j, hj, hneeded, rfl⟩ := exists_rank_eq hi
  rw [uses_rank hb hneeded, ← needs_of_lt hj]
  exact hneeded

end Sweep

theorem discards_restrict_iff {p : Pattern} {kept : Nat → Bool} :
    (p.restrict kept).discards ↔ ∀ k < p.size, kept k = false := by
  rw [Pattern.discards, beq_iff_eq, Pattern.size_restrict, rank_eq_zero_iff]

/-- A binding loses exactly the slots that its body does not use. It goes away with the last
of them if it binds the result of a return, and otherwise there is nothing more to lose. -/
theorem dropUnused_eq_restrict (p : Pattern) (bound body : Program Op) :
    ∃ m body', Reindexing.underRebuilt (.weaken 0) p (p.restrict body.uses) = .ok m ∧
      body.reindex m = some body' ∧
      ((∀ k < p.size, body.uses k = false) ∧ bound.isReturn →
        (Program.letIn p bound body).dropUnused = body') ∧
      (¬((∀ k < p.size, body.uses k = false) ∧ bound.isReturn) →
        (Program.letIn p bound body).dropUnused = .letIn (p.restrict body.uses) bound body' ∧
        (Program.letIn (p.restrict body.uses) bound body').dropUnused =
          .letIn (p.restrict body.uses) bound body') := by
  obtain ⟨body', hb, hsweep⟩ := @sweep_eq _ p body p.size 0 (fun _ hi => by omega) (by omega)
  have hm := Reindexing.underRebuilt_restrict fun i (hi : p.size ≤ i) => @needs_of_le _ p body i hi
  rw [restrict_needs] at hm
  have hswept := sweep_of_uses fun i hi => uses_of_lt_size hb hi
  refine ⟨_, body', hm, hb, fun h => ?_, fun h => ?_⟩
  · rw [← discards_restrict_iff] at h
    simp [dropUnused, hsweep, h]
  · rw [← discards_restrict_iff] at h
    simp [dropUnused, hsweep, hswept, h]

end Program

end ArrayFusion

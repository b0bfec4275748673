import ArrayFusion.Proofs.Cluster.Arguments
import ArrayFusion.Proofs.Merge.Uses
set_option autoImplicit false

/-!
The edges of a cluster are the flow of buffers between its leaves. If no buffer
stands for two arguments, an edge leads from a leaf to another one exactly when
the first writes a buffer that the second reads. Whatever the buffers are, one
that the cluster as a whole only writes has been written before it is read.
-/

namespace ArrayFusion

open Actual

def PassedAt (role : BufferId → Ty → Actual) (lists : List (List Actual)) (k : Nat)
    (b : BufferId) : Prop :=
  ∃ l t, lists[k]? = some l ∧ role b t ∈ l

def ReadsAt : List (List Actual) → Nat → BufferId → Prop := PassedAt .input

def WritesAt : List (List Actual) → Nat → BufferId → Prop := PassedAt .output

theorem passedAt_singleton {role : BufferId → Ty → Actual} {l : List Actual} {k : Nat}
    {b : BufferId} : PassedAt role [l] k b ↔ k = 0 ∧ ∃ t, role b t ∈ l := by
  constructor
  · rintro ⟨l', t, hk, hb⟩
    obtain ⟨rfl, rfl⟩ : k = 0 ∧ l' = l := by
      cases k <;> simp_all
    exact ⟨rfl, t, hb⟩
  · rintro ⟨rfl, t, hb⟩
    exact ⟨l, t, rfl, hb⟩

theorem passedAt_append {role : BufferId → Ty → Actual} {ll rl : List (List Actual)} {k : Nat}
    {b : BufferId} : PassedAt role (ll ++ rl) k b ↔
      PassedAt role ll k b ∨ ∃ j, k = ll.length + j ∧ PassedAt role rl j b := by
  constructor
  · rintro ⟨l, t, hk, hb⟩
    by_cases hlt : k < ll.length
    · rw [List.getElem?_append_left hlt] at hk
      exact .inl ⟨l, t, hk, hb⟩
    · rw [List.getElem?_append_right (Nat.not_lt.1 hlt)] at hk
      exact .inr ⟨k - ll.length, by omega, l, t, hk, hb⟩
  · rintro (⟨l, t, hk, hb⟩ | ⟨j, rfl, l, t, hj, hb⟩)
    · have hlt : k < ll.length := (List.getElem?_eq_some_iff.1 hk).1
      exact ⟨l, t, by rwa [List.getElem?_append_left hlt], hb⟩
    · refine ⟨l, t, ?_, hb⟩
      rw [List.getElem?_append_right (Nat.le_add_right ..), Nat.add_sub_cancel_left]
      exact hj

theorem exists_passedAt_append {role : BufferId → Ty → Actual} {ll rl : List (List Actual)}
    {b : BufferId} {first i : Nat} : (∃ k, i = first + k ∧ PassedAt role (ll ++ rl) k b) ↔
      (∃ k, i = first + k ∧ PassedAt role ll k b) ∨
        ∃ k, i = first + ll.length + k ∧ PassedAt role rl k b := by
  constructor
  · rintro ⟨k, rfl, hk⟩
    rcases passedAt_append.1 hk with hk | ⟨j, rfl, hj⟩
    · exact .inl ⟨k, rfl, hk⟩
    · exact .inr ⟨j, (Nat.add_assoc ..).symm, hj⟩
  · rintro (⟨k, rfl, hk⟩ | ⟨k, rfl, hk⟩)
    · exact ⟨k, rfl, passedAt_append.2 (.inl hk)⟩
    · exact ⟨_, Nat.add_assoc .., passedAt_append.2 (.inr ⟨k, rfl, hk⟩)⟩

theorem Actual.uses_const_iff {args : List Actual} {b : BufferId} {i n : Nat} :
    Uses b i args ((signatureOf args).map fun _ => [n]) ↔ b ∈ buffers args ∧ i = n := by
  induction args with
  | nil => simp [Uses, buffers]
  | cons a args ih =>
    rw [signatureOf_cons, List.map_cons, uses_cons_iff, List.tail_cons, ih, List.headD_cons,
      List.mem_singleton, ← or_and_right]
    refine and_congr_left fun _ => ?_
    cases h : a.buffer? <;> simp [buffers, h, eq_comm]

theorem Actual.uses_leaf_iff {role : BufferId → Ty → Actual} {b : BufferId}
    (hrole : ∀ t, (role b t).buffer? = some b) {args : List Actual}
    (honly : ∀ a ∈ args, a.buffer? = some b → ∃ t, a = role b t) (ps : List Nat) (first i : Nat) :
    Uses b i args ((signatureOf args).map fun _ => [first]) ↔
      ∃ k, i = first + k ∧ PassedAt role [reorder ps args] k b := by
  rw [uses_const_iff]
  constructor
  · rintro ⟨hm, rfl⟩
    obtain ⟨a, ha, hab⟩ := mem_buffers.1 hm
    obtain ⟨t, rfl⟩ := honly a ha hab
    exact ⟨0, rfl, passedAt_singleton.2 ⟨rfl, t, (reorder_perm ..).mem_iff.2 ha⟩⟩
  · rintro ⟨k, rfl, hk⟩
    obtain ⟨rfl, t, ht⟩ := passedAt_singleton.1 hk
    exact ⟨mem_buffers.2 ⟨_, (reorder_perm ..).mem_iff.1 ht, hrole t⟩, rfl⟩

section Whole

variable {α : Type} [Argument α] {ms : List MergeMode} {la ra args own il ir : List α}

theorem Joined.mem_whole_left (h : Joined ms la ra args own) {x : α} (hx : x ∈ la ++ il) :
    x ∈ args ++ (own ++ il ++ ir) := by
  rcases List.mem_append.1 hx with hx | hx
  · rcases List.mem_append.1 (h.mem_of_mem_left hx) with hx | hx <;> simp [hx]
  · simp [hx]

theorem Joined.mem_whole_right (h : Joined ms la ra args own) {y : α} (hy : y ∈ ra ++ ir) :
    y ∈ args ++ (own ++ il ++ ir) ∨
      ∃ x ∈ la, ∃ t, Argument.param x = ⟨.output, t⟩ ∧ y = Argument.toInput x := by
  rcases List.mem_append.1 hy with hy | hy
  · exact (h.mem_of_mem_right hy).imp_left (List.mem_append_left _)
  · exact .inl (by simp [hy])

theorem Joined.mem_part (h : Joined ms la ra args own) {x : α}
    (hx : x ∈ args ++ (own ++ il ++ ir)) : x ∈ la ++ il ∨ x ∈ ra ++ ir := by
  have hx : x ∈ args ++ own ∨ x ∈ il ∨ x ∈ ir := by simpa [or_assoc] using hx
  rcases hx with hx | hx | hx
  · exact (h.mem_left_or_right hx).imp (List.mem_append_left _) (List.mem_append_left _)
  · exact .inl (List.mem_append_right _ hx)
  · exact .inr (List.mem_append_right _ hx)

end Whole

/-- The argument lists of the two parts of a branch: what one part names in
common with the other is an external argument of both. -/
structure Apart (la il ra ir : List Actual) : Prop where
  left : (buffers (la ++ il)).Nodup
  right : (buffers (ra ++ ir)).Nodup
  common : ∀ x ∈ la ++ il, ∀ y ∈ ra ++ ir, ∀ b, x.buffer? = some b → y.buffer? = some b →
    x ∈ la ∧ y ∈ ra ∧ y = x.toInput

theorem Joined.apart {ms : List MergeMode} {la ra args own il ir : List Actual}
    (h : Joined ms la ra args own) (hn : (buffers (args ++ (own ++ il ++ ir))).Nodup) :
    Apart la il ra ir := by
  have hn : (buffers (args ++ own) ++ (buffers il ++ buffers ir)).Nodup := by
    simpa [List.append_assoc] using hn
  obtain ⟨hao, hi, hdis⟩ := List.nodup_append.1 hn
  obtain ⟨hil, hir, hlr⟩ := List.nodup_append.1 hi
  have hsep := h.separate hao
  have hal : ∀ {b}, b ∈ buffers (args ++ own) → b ∉ buffers il := fun hb hb' =>
    hdis _ hb _ (List.mem_append_left _ hb') rfl
  have har : ∀ {b}, b ∈ buffers (args ++ own) → b ∉ buffers ir := fun hb hb' =>
    hdis _ hb _ (List.mem_append_right _ hb') rfl
  constructor
  · rw [buffers_append]
    exact List.nodup_append.2 ⟨hsep.left, hil, fun b hb b' hb' he =>
      hal (h.buffers_left hb) (he ▸ hb')⟩
  · rw [buffers_append]
    exact List.nodup_append.2 ⟨hsep.right, hir, fun b hb b' hb' he =>
      har (h.buffers_right hb) (he ▸ hb')⟩
  · intro x hx y hy b hxb hyb
    have hb : ∀ {z : Actual} {l : List Actual}, z.buffer? = some b → z ∈ l → b ∈ buffers l :=
      fun hz hl => mem_buffers.2 ⟨_, hl, hz⟩
    rcases List.mem_append.1 hx with hx | hx <;> rcases List.mem_append.1 hy with hy | hy
    · exact ⟨hx, hy, hsep.eq_toInput x hx y hy b hxb hyb⟩
    · exact absurd (hb hyb hy) (har (h.buffers_left (hb hxb hx)))
    · exact absurd (hb hxb hx) (hal (h.buffers_right (hb hyb hy)))
    · exact absurd rfl (hlr b (hb hxb hx) b (hb hyb hy))

theorem Apart.not_output_both {la il ra ir : List Actual} (h : Apart la il ra ir) {b : BufferId}
    {t u : Ty} (hl : .output b t ∈ la ++ il) (hr : .output b u ∈ ra ++ ir) : False :=
  toInput_ne_output _ _ _ (h.common _ hl _ hr b rfl rfl).2.2.symm

namespace Cluster

namespace Carries

variable {Op : Type} {c : Cluster Op} {args inner : List Actual}
  {lists : List (List Actual)} {b : BufferId}

theorem exists_output_of_writesAt (h : Carries c args inner lists) {k : Nat}
    (hw : WritesAt lists k b) : ∃ t, .output b t ∈ args ++ inner := by
  induction h generalizing k with
  | leaf ha =>
    obtain ⟨_, rfl⟩ := Permutation.apply_eq_ok_iff.1 ha
    obtain ⟨_, t, ht⟩ := passedAt_singleton.1 hw
    exact ⟨t, List.mem_append_left _ ((reorder_perm ..).mem_iff.1 ht)⟩
  | branch hd _ _ hl hr =>
    rcases passedAt_append.1 hw with hw | ⟨j, _, hw⟩
    · obtain ⟨t, ht⟩ := hl hw
      exact ⟨t, hd.2.2.mem_whole_left ht⟩
    · obtain ⟨t, ht⟩ := hr hw
      rcases hd.2.2.mem_whole_right ht with ht | ⟨x, _, _, _, he⟩
      · exact ⟨t, ht⟩
      · exact (toInput_ne_output x b t he.symm).elim

theorem exists_mem_lists (h : Carries c args inner lists) {a : Actual}
    (ha : a ∈ args ++ inner) : ∃ l ∈ lists, a ∈ l := by
  induction h with
  | leaf hp =>
    obtain ⟨_, rfl⟩ := Permutation.apply_eq_ok_iff.1 hp
    rw [List.append_nil] at ha
    exact ⟨_, List.mem_singleton.2 rfl, (reorder_perm ..).mem_iff.2 ha⟩
  | branch hd _ _ hl hr =>
    rcases hd.2.2.mem_part ha with ha | ha
    · obtain ⟨l, hm, hb⟩ := hl ha
      exact ⟨l, List.mem_append_left _ hm, hb⟩
    · obtain ⟨l, hm, hb⟩ := hr ha
      exact ⟨l, List.mem_append_right _ hm, hb⟩

theorem exists_writesAt (h : Carries c args inner lists) {t : Ty}
    (hb : .output b t ∈ args ++ inner) : ∃ k, WritesAt lists k b := by
  obtain ⟨l, hl, hb⟩ := h.exists_mem_lists hb
  obtain ⟨k, hk⟩ := List.mem_iff_getElem?.1 hl
  exact ⟨k, l, t, hk, hb⟩

theorem exists_output_of_mem_inner (h : Carries c args inner lists) {a : Actual}
    (ha : a ∈ inner) : ∃ b t, a = .output b t := by
  induction h with
  | leaf _ => cases ha
  | branch hd _ _ hl hr =>
    simp only [List.mem_append, or_assoc] at ha
    rcases ha with ha | ha | ha
    · obtain ⟨t, ht⟩ := hd.2.2.output_of_mem_inner ha
      obtain ⟨b, rfl⟩ := output_of_param ht
      exact ⟨b, t, rfl⟩
    · exact hl ha
    · exact hr ha

theorem exists_of_readsAt (h : Carries c args inner lists) {k : Nat}
    (hr : ReadsAt lists k b) : ∃ a ∈ args ++ inner, a.buffer? = some b := by
  induction h generalizing k with
  | leaf ha =>
    obtain ⟨_, rfl⟩ := Permutation.apply_eq_ok_iff.1 ha
    obtain ⟨_, t, ht⟩ := passedAt_singleton.1 hr
    exact ⟨_, List.mem_append_left _ ((reorder_perm ..).mem_iff.1 ht), rfl⟩
  | branch hd _ _ ihl ihr =>
    rcases passedAt_append.1 hr with hr | ⟨j, _, hr⟩
    · obtain ⟨a, ha, hab⟩ := ihl hr
      exact ⟨a, hd.2.2.mem_whole_left ha, hab⟩
    · obtain ⟨a, ha, hab⟩ := ihr hr
      rcases hd.2.2.mem_whole_right ha with ha | ⟨x, hx, t, _, rfl⟩
      · exact ⟨a, ha, hab⟩
      · exact ⟨x, hd.2.2.mem_whole_left (List.mem_append_left _ hx),
          (buffer?_toInput x).symm.trans hab⟩

/-- What the cluster as a whole only writes is written before it is read. -/
theorem exists_writesAt_lt (h : Carries c args inner lists) {k : Nat}
    (hb : ∀ a ∈ args ++ inner, a.buffer? = some b → ∃ t, a = .output b t)
    (hr : ReadsAt lists k b) : ∃ j < k, WritesAt lists j b := by
  induction h generalizing k with
  | leaf ha =>
    obtain ⟨_, rfl⟩ := Permutation.apply_eq_ok_iff.1 ha
    obtain ⟨_, t, ht⟩ := passedAt_singleton.1 hr
    have hm := List.mem_append_left [] ((reorder_perm ..).mem_iff.1 ht)
    obtain ⟨u, hu⟩ := hb _ hm rfl
    cases hu
  | @branch l r d la ra args own il ir ll rl hd hcl hcr ihl ihr =>
    rcases passedAt_append.1 hr with hl | ⟨j, rfl, hr⟩
    · obtain ⟨j, hj, hw⟩ := ihl (fun a ha => hb a (hd.2.2.mem_whole_left ha)) hl
      exact ⟨j, hj, passedAt_append.2 (.inl hw)⟩
    · by_cases hx : ∃ x ∈ la, ∃ t, x.param = ⟨.output, t⟩ ∧ x.buffer? = some b
      · -- The left part writes the buffer, and all of it runs first.
        obtain ⟨x, hx, t, hp, hxb⟩ := hx
        obtain ⟨b', rfl⟩ := output_of_param hp
        cases hxb
        obtain ⟨i, hi⟩ := hcl.exists_writesAt (List.mem_append_left _ hx)
        obtain ⟨_, _, hlt, _⟩ := id hi
        have := (List.getElem?_eq_some_iff.1 hlt).1
        exact ⟨i, by omega, passedAt_append.2 (.inl hi)⟩
      · have hb' : ∀ a ∈ ra ++ ir, a.buffer? = some b → ∃ t, a = .output b t := by
          intro a ha hab
          rcases hd.2.2.mem_whole_right ha with ha | ⟨x, hxl, t, hp, rfl⟩
          · exact hb a ha hab
          · exact (hx ⟨x, hxl, t, hp, (buffer?_toInput x).symm.trans hab⟩).elim
        obtain ⟨i, hi, hw⟩ := ihr hb' ‹_›
        exact ⟨ll.length + i, by omega, passedAt_append.2 (.inr ⟨i, rfl, hw⟩)⟩

theorem not_writesAt (h : Carries c args inner lists) (hb : b ∉ buffers (args ++ inner)) (k : Nat) :
    ¬WritesAt lists k b := by
  intro hw
  obtain ⟨t, ht⟩ := h.exists_output_of_writesAt hw
  exact hb (mem_buffers.2 ⟨_, ht, rfl⟩)

theorem uses_iff_readsAt (h : Carries c args inner lists)
    (hb : ∀ t, .output b t ∉ args ++ inner) (first i : Nat) :
    Uses b i args (c.users first) ↔ ∃ k, i = first + k ∧ ReadsAt lists k b := by
  induction h generalizing first with
  | leaf ha =>
    obtain ⟨hs, rfl⟩ := Permutation.apply_eq_ok_iff.1 ha
    rw [users, hs]
    refine uses_leaf_iff (fun _ => rfl) (fun a ha hab => ?_) _ _ _
    cases a with
    | input c t => cases hab ; exact ⟨t, rfl⟩
    | output c t => cases hab ; exact (hb t (List.mem_append_left _ ha)).elim
    | scalar _ | function _ => cases hab
  | @branch l r d la ra args own il ir ll rl hd hcl hcr ihl ihr =>
    have hl : ∀ t, .output b t ∉ la ++ il := fun t ht => hb t (hd.2.2.mem_whole_left ht)
    have hr : ∀ t, .output b t ∉ ra ++ ir := by
      intro t ht
      rcases hd.2.2.mem_whole_right ht with ht | ⟨x, _, _, _, he⟩
      · exact hb t ht
      · exact toInput_ne_output x b t he.symm
    have hm : ∀ t, .output b t ∉ args ++ own := by
      intro t ht
      refine hb t ?_
      rw [List.append_assoc, ← List.append_assoc]
      exact List.mem_append_left _ ht
    rw [users, hd.2.2.uses_iff_of_not_output hm, ihl hl, ihr hr, ← hcl.length_lists]
    exact exists_passedAt_append.symm

theorem uses_iff_writesAt (h : Carries c args inner lists) (hn : (buffers (args ++ inner)).Nodup)
    (ha : ∀ t, .input b t ∉ args) (hi : b ∉ buffers inner) (first i : Nat) :
    Uses b i args (c.users first) ↔ ∃ k, i = first + k ∧ WritesAt lists k b := by
  induction h generalizing first with
  | leaf hp =>
    obtain ⟨hs, rfl⟩ := Permutation.apply_eq_ok_iff.1 hp
    rw [users, hs]
    refine uses_leaf_iff (fun _ => rfl) (fun a hm hab => ?_) _ _ _
    cases a with
    | input c t => cases hab ; exact (ha t hm).elim
    | output c t => cases hab ; exact ⟨t, rfl⟩
    | scalar _ | function _ => cases hab
  | @branch l r d la ra args own il ir ll rl hd hcl hcr ihl ihr =>
    have hj := hd.2.2
    have hap := hj.apart hn
    obtain ⟨hown, hil, hir⟩ : b ∉ buffers own ∧ b ∉ buffers il ∧ b ∉ buffers ir := by
      simpa [not_or] using hi
    rw [users, WritesAt, exists_passedAt_append]
    by_cases hb : b ∈ buffers la
    · -- The left part owns the buffer: nobody to the right writes it.
      obtain ⟨x, hx, hxb⟩ := mem_buffers.1 hb
      have hra : ∀ t, .output b t ∉ ra ++ ir := by
        intro t ht
        have he := (hap.common x (List.mem_append_left _ hx) _ ht b hxb rfl).2.2
        exact toInput_ne_output x b t he.symm
      have hla : ∀ t, .input b t ∉ la := by
        intro t ht
        rcases List.mem_append.1 (hj.mem_of_mem_left ht) with hm | hm
        · exact ha t hm
        · exact hown (mem_buffers.2 ⟨_, hm, rfl⟩)
      rw [hj.uses_iff_left ha (fun t ht => hra t (List.mem_append_left _ ht)) hown,
        ihl hap.left hla hil]
      refine (or_iff_left ?_).symm
      rintro ⟨k, _, hw⟩
      obtain ⟨t, ht⟩ := hcr.exists_output_of_writesAt hw
      exact hra t ht
    · have hra : ∀ t, .input b t ∉ ra := by
        intro t ht
        rcases hj.mem_of_mem_right ht with hm | ⟨x, hx, _, _, he⟩
        · exact ha t hm
        · have hxb : x.buffer? = some b := (buffer?_toInput x).symm.trans (congrArg buffer? he.symm)
          exact hb (mem_buffers.2 ⟨x, hx, hxb⟩)
      have hnot : b ∉ buffers (la ++ il) := by
        rw [buffers_append, List.mem_append]
        exact not_or.2 ⟨hb, hil⟩
      rw [hj.uses_iff_right hb, ihr hap.right hra hir, ← hcl.length_lists]
      refine (or_iff_right ?_).symm
      rintro ⟨k, _, hw⟩
      exact hcl.not_writesAt hnot k hw

theorem writesAt_unique (h : Carries c args inner lists) (hn : (buffers (args ++ inner)).Nodup)
    {i j : Nat} (hi : WritesAt lists i b) (hj : WritesAt lists j b) : i = j := by
  induction h generalizing i j with
  | leaf _ => rw [(passedAt_singleton.1 hi).1, (passedAt_singleton.1 hj).1]
  | branch hd hcl hcr ihl ihr =>
    have hap := hd.2.2.apart hn
    have hlr : ∀ {i j}, WritesAt _ i b → WritesAt _ j b → False := fun hi hj => by
      obtain ⟨_, hl⟩ := hcl.exists_output_of_writesAt hi
      obtain ⟨_, hr⟩ := hcr.exists_output_of_writesAt hj
      exact hap.not_output_both hl hr
    rcases passedAt_append.1 hi with hil | ⟨i', he, hir⟩ <;>
      rcases passedAt_append.1 hj with hjl | ⟨j', he', hjr⟩
    · exact ihl hap.left hil hjl
    · exact (hlr hil hjr).elim
    · exact (hlr hjl hir).elim
    · rw [he, he', ihr hap.right hir hjr]

/-- A leaf that writes a buffer and a leaf that reads it lie on the two sides of a
branch just if the merge fuses the buffer. -/
theorem feeds_iff {l r : Cluster Op} {la il ra ir : List Actual} {ll rl : List (List Actual)}
    (hl : Carries l la il ll) (hr : Carries r ra ir rl) (hap : Apart la il ra ir)
    (first second w k : Nat) :
    Feeds la ra (l.users first) (r.users second) w k ↔
      ∃ i j, w = first + i ∧ k = second + j ∧ ∃ b, WritesAt ll i b ∧ ReadsAt rl j b := by
  have huses : ∀ {b t}, Actual.output b t ∈ la → Actual.input b t ∈ ra →
      (Uses b w la (l.users first) ↔ ∃ i, w = first + i ∧ WritesAt ll i b) ∧
      (Uses b k ra (r.users second) ↔ ∃ j, k = second + j ∧ ReadsAt rl j b) := by
    intro b t ho hi
    have hnil : b ∉ buffers il := fun h =>
      (List.nodup_append.1 (buffers_append .. ▸ hap.left)).2.2 b (mem_buffers.2 ⟨_, ho, rfl⟩)
        b h rfl
    refine ⟨hl.uses_iff_writesAt hap.left (fun u hu => ?_) hnil _ _,
      hr.uses_iff_readsAt (fun u hu => ?_) _ _⟩
    · cases eq_of_buffer?_eq hap.left (List.mem_append_left _ hu) (List.mem_append_left _ ho)
        rfl rfl
    · cases eq_of_buffer?_eq hap.right hu (List.mem_append_left _ hi) rfl rfl
  constructor
  · rintro ⟨b, t, ho, hi, hw, hk⟩
    obtain ⟨i, hwi, hwr⟩ := (huses ho hi).1.1 hw
    obtain ⟨j, hkj, hrd⟩ := (huses ho hi).2.1 hk
    exact ⟨i, j, hwi, hkj, b, hwr, hrd⟩
  · rintro ⟨i, j, hi, hj, b, hw, hk⟩
    obtain ⟨t, ho⟩ := hl.exists_output_of_writesAt hw
    obtain ⟨a, ha, hab⟩ := hr.exists_of_readsAt hk
    obtain ⟨ho, ha, rfl⟩ := hap.common _ ho _ ha b rfl hab
    exact ⟨b, t, ho, ha, (huses ho ha).1.2 ⟨i, hi, hw⟩, (huses ho ha).2.2 ⟨j, hj, hk⟩⟩

theorem mem_edgesFrom_iff (h : Carries c args inner lists)
    (hn : (buffers (args ++ inner)).Nodup) (first w k : Nat) :
    (w, k) ∈ c.edgesFrom first ↔
      ∃ i j, w = first + i ∧ k = first + j ∧ ∃ b, WritesAt lists i b ∧ ReadsAt lists j b := by
  induction h generalizing first with
  | leaf hp =>
    obtain ⟨_, rfl⟩ := Permutation.apply_eq_ok_iff.1 hp
    refine iff_of_false List.not_mem_nil ?_
    rintro ⟨i, j, _, _, b, hw, hr⟩
    obtain ⟨_, _, ho⟩ := passedAt_singleton.1 hw
    obtain ⟨_, _, hi⟩ := passedAt_singleton.1 hr
    rw [List.append_nil] at hn
    cases eq_of_buffer?_eq hn ((reorder_perm ..).mem_iff.1 ho) ((reorder_perm ..).mem_iff.1 hi)
      rfl rfl
  | @branch l r d la ra args own il ir ll rl hd hcl hcr ihl ihr =>
    have hap := hd.2.2.apart hn
    rw [edgesFrom, List.mem_append, List.mem_append, ihl hap.left, ihr hap.right,
      hd.2.2.mem_mergeEdges_iff ?own, hcl.feeds_iff hcr hap, ← hcl.length_lists]
    case own => exact hn.sublist (List.Sublist.filterMap _ (by simp [← List.append_assoc]))
    constructor
    · rintro ((⟨i, j, rfl, rfl, b, hw, hr⟩ | ⟨i, j, rfl, rfl, b, hw, hr⟩) |
        ⟨i, j, rfl, rfl, b, hw, hr⟩)
      · exact ⟨i, j, rfl, rfl, b, passedAt_append.2 (.inl hw), passedAt_append.2 (.inl hr)⟩
      · exact ⟨_, _, Nat.add_assoc .., Nat.add_assoc .., b,
          passedAt_append.2 (.inr ⟨i, rfl, hw⟩), passedAt_append.2 (.inr ⟨j, rfl, hr⟩)⟩
      · exact ⟨_, _, rfl, Nat.add_assoc .., b, passedAt_append.2 (.inl hw),
          passedAt_append.2 (.inr ⟨j, rfl, hr⟩)⟩
    · rintro ⟨i, j, rfl, rfl, b, hw, hr⟩
      rcases passedAt_append.1 hw with hwl | ⟨i, rfl, hwr⟩ <;>
        rcases passedAt_append.1 hr with hrl | ⟨j, rfl, hrr⟩
      · exact .inl (.inl ⟨i, j, rfl, rfl, b, hwl, hrl⟩)
      · exact .inr ⟨i, j, rfl, (Nat.add_assoc ..).symm, b, hwl, hrr⟩
      · -- What the right part writes, the left part cannot read.
        obtain ⟨t, ho⟩ := hcr.exists_output_of_writesAt hwr
        obtain ⟨a, ha, hab⟩ := hcl.exists_of_readsAt hrl
        have he := (hap.common a ha _ ho b hab rfl).2.2
        exact (toInput_ne_output a b t he.symm).elim
      · exact .inl (.inr ⟨i, j, (Nat.add_assoc ..).symm, (Nat.add_assoc ..).symm, b, hwr, hrr⟩)

end Carries

variable {Op : Type} [Operation Op]

/-- The edges are the flow of buffers between the leaves, and every buffer that
flows has one leaf to come from. -/
theorem mem_dependencies_iff (c : Cluster Op) (hc : c.WellFormed) {args inner : List Actual}
    (ha : signatureOf args = c.external) (hi : signatureOf inner = c.intermediates)
    (hn : (buffers (args ++ inner)).Nodup) :
    ∃ lists, c.leafArguments args inner = .ok lists ∧
      (∀ i j, (i, j) ∈ c.dependencies ↔ ∃ b, WritesAt lists i b ∧ ReadsAt lists j b) ∧
      ∀ i j b, WritesAt lists i b → WritesAt lists j b → i = j := by
  obtain ⟨lists, h⟩ := exists_carries hc ha hi
  refine ⟨lists, (leafArguments_eq_ok_iff hc).2 h, fun i j => ?_,
    fun i j b hw hw' => h.writesAt_unique hn hw hw'⟩
  rw [dependencies, List.mem_eraseDups, h.mem_edgesFrom_iff hn]
  simp

/-- Three copies in a row: the first array in between is kept, the second one is not. -/
theorem mem_dependencies_iff_chain :
    let v : Ty := .array 1 (.int 64)
    let copy : Cluster Kernel := single (.copy 1 (.int 64))
    let args := [Actual.input ⟨0⟩ v, .output ⟨1⟩ v, .output ⟨3⟩ v]
    let inner := [Actual.output ⟨2⟩ v]
    ∃ l c : Cluster Kernel, fuse copy copy [.leftOnly, .kept, .rightOnlyOut] = .ok l ∧
      fuse l copy [.leftOnly, .leftOnlyOut, .consumed, .rightOnlyOut] = .ok c ∧
      c.WellFormed ∧ c.dependencies = [(0, 1), (1, 2)] ∧
      ∃ lists, c.leafArguments args inner = .ok lists ∧
        (∀ i j, (i, j) ∈ c.dependencies ↔ ∃ b, WritesAt lists i b ∧ ReadsAt lists j b) ∧
        ∀ i j b, WritesAt lists i b → WritesAt lists j b → i = j := by
  intro v copy args inner
  refine ⟨_, _, rfl, rfl, ?hc, rfl, mem_dependencies_iff _ ?hc rfl rfl (by decide)⟩
  exact ⟨rfl, rfl, ⟨rfl, rfl, rfl, rfl⟩, rfl⟩

end Cluster

end ArrayFusion

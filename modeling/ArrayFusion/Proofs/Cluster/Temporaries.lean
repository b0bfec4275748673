import ArrayFusion.Cluster.Run
import ArrayFusion.Proofs.Actual
import ArrayFusion.Proofs.Heap.Liveness
set_option autoImplicit false

namespace ArrayFusion

open Actual

/-- The buffers of the list are replaced by new ones in order, numbered from `n` on. -/
def standIn : (n : Nat) → List BufferId → BufferId → BufferId
  | _, [], c => c
  | n, b :: bs, c => if c = b then ⟨n⟩ else standIn (n + 1) bs c

theorem standIn_of_not_mem {n : Nat} {bs : List BufferId} {c : BufferId} (h : c ∉ bs) :
    standIn n bs c = c := by
  induction bs generalizing n with
  | nil => rfl
  | cons b bs ih =>
    rw [List.mem_cons, not_or] at h
    rw [standIn, if_neg h.1, ih h.2]

theorem number_standIn {n : Nat} {bs : List BufferId} {c : BufferId} (h : c ∈ bs) :
    n ≤ (standIn n bs c).number := by
  induction bs generalizing n with
  | nil => cases h
  | cons b bs ih =>
    unfold standIn
    by_cases hc : c = b
    · simp [hc]
    · rw [if_neg hc]
      have := ih (n := n + 1) ((List.mem_cons.1 h).resolve_left hc)
      omega

theorem standIn_inj {n : Nat} {bs : List BufferId} {c d : BufferId} (hc : c ∈ bs) (hd : d ∈ bs)
    (h : standIn n bs c = standIn n bs d) : c = d := by
  induction bs generalizing n with
  | nil => cases hc
  | cons b bs ih =>
    -- A buffer further down the list gets a larger number than the head.
    have later : ∀ {e}, e ∈ b :: bs → e ≠ b → standIn (n + 1) bs e ≠ ⟨n⟩ := by
      intro e he hne heq
      have := number_standIn (n := n + 1) ((List.mem_cons.1 he).resolve_left hne)
      rw [heq] at this
      exact Nat.not_succ_le_self n this
    unfold standIn at h
    by_cases hcb : c = b <;> by_cases hdb : d = b
    · rw [hcb, hdb]
    · rw [if_pos hcb, if_neg hdb] at h
      exact absurd h.symm (later hd hdb)
    · rw [if_neg hcb, if_pos hdb] at h
      exact absurd h (later hc hcb)
    · rw [if_neg hcb, if_neg hdb] at h
      exact ih ((List.mem_cons.1 hc).resolve_left hcb) ((List.mem_cons.1 hd).resolve_left hdb) h

namespace Heap

def shapesOf (h : Heap) (args : List Actual) : List Shape :=
  (buffers args).filterMap fun b => (h.find? b).map Buffer.shape

theorem length_shapesOf {h : Heap} {args : List Actual}
    (ha : ∀ a ∈ args, ∃ b x, a.buffer? = some b ∧ h.find? b = some x) :
    (h.shapesOf args).length = args.length := by
  induction args with
  | nil => rfl
  | cons a args ih =>
    obtain ⟨b, x, hb, hx⟩ := ha a (List.mem_cons_self ..)
    have ih := ih fun a ha' => ha a (List.mem_cons_of_mem _ ha')
    simp only [shapesOf, buffers] at ih
    simp [shapesOf, buffers, hb, hx, ih]

/-- Live buffers keep their names, but for those in the list, which get new ones. -/
def standIns (h : Heap) (bs : List BufferId) : Renaming where
  dom b := (h.find? b).isSome
  map := standIn h.next bs
  inj {b c} hb hc he := by
    obtain ⟨x, hx⟩ := Option.isSome_iff_exists.1 hb
    obtain ⟨y, hy⟩ := Option.isSome_iff_exists.1 hc
    have hx := number_lt_next hx
    have hy := number_lt_next hy
    by_cases hbm : b ∈ bs <;> by_cases hcm : c ∈ bs
    · exact standIn_inj hbm hcm he
    · have := number_standIn (n := h.next) hbm
      rw [he, standIn_of_not_mem hcm] at this
      omega
    · have := number_standIn (n := h.next) hcm
      rw [← he, standIn_of_not_mem hbm] at this
      omega
    · rwa [standIn_of_not_mem hbm, standIn_of_not_mem hcm] at he

theorem exists_zeroOf {t : Ty} (h : t.isScalar) : ∃ x, zeroOf t = .ok x := by
  unfold Ty.isScalar at h
  split at h
  · exact ⟨_, rfl⟩
  · exact ⟨_, rfl⟩
  · exact ⟨_, rfl⟩
  · exact ⟨_, rfl⟩
  · cases h

theorem exists_zeroOf_error {t : Ty} (h : ¬t.isScalar) : ∃ e, zeroOf t = .error e := by
  unfold zeroOf
  split
  · exact absurd rfl h
  · exact absurd rfl h
  · exact absurd rfl h
  · exact absurd rfl h
  · exact ⟨_, rfl⟩

theorem alloc_eq_ok {elem : Ty} {zero : Literal} (hz : zeroOf elem = .ok zero) (shape : Shape)
    (h : Heap) : alloc elem shape h =
      .ok ⟨h.next⟩ ⟨h.cells ++ [some ⟨shape, List.replicate shape.volume zero⟩]⟩ := by
  simp only [alloc, bind, EStateM.bind, Action.ofExcept, hz, insert]

theorem find?_insert_of_lt {h : Heap} {b : BufferId} (hb : b.number < h.next) (x : Buffer) :
    Heap.find? ⟨h.cells ++ [some x]⟩ b = h.find? b := by
  rw [find?_insert, if_neg]
  rintro rfl
  exact Nat.lt_irrefl _ hb

theorem find?_insert_next (h : Heap) (x : Buffer) :
    Heap.find? ⟨h.cells ++ [some x]⟩ ⟨h.next⟩ = some x := by
  rw [find?_insert, if_pos rfl]

end Heap

namespace Cluster

/-- A temporary for each of the arguments, which are outputs to arrays of scalars
that are live in `home`. It has the shape of the buffer in whose place it is. -/
theorem exists_allocate (home : Heap) {inner : List Actual} (hn : (buffers inner).Nodup)
    (hi : ∀ a ∈ inner, ∃ b rank elem x, a = .output b (.array rank elem) ∧ elem.isScalar ∧
      home.find? b = some x) (h : Heap) :
    ∃ g, allocate ((signatureOf inner).zip (home.shapesOf inner)) h =
        .ok (inner.map (rename (standIn h.next (buffers inner)))) g ∧
      (∀ b x, h.find? b = some x → g.find? b = some x) ∧
      ∀ b ∈ buffers inner, ∀ x, home.find? b = some x →
        ∃ y, g.find? (standIn h.next (buffers inner) b) = some y ∧ y.shape = x.shape ∧
          y.data.length = x.shape.volume := by
  induction inner generalizing h with
  | nil => exact ⟨h, rfl, fun b x hb => hb, fun b hb => (List.not_mem_nil hb).elim⟩
  | cons a inner ih =>
    obtain ⟨b, rank, elem, x, rfl, hs, hx⟩ := hi a (List.mem_cons_self ..)
    obtain ⟨hb, hn⟩ := nodup_buffers_cons.1 hn
    have hb := hb b rfl
    obtain ⟨zero, hz⟩ := Heap.exists_zeroOf hs
    let fresh : Buffer := ⟨x.shape, List.replicate x.shape.volume zero⟩
    obtain ⟨g, hg, hold, hnew⟩ := ih hn (fun a ha => hi a (List.mem_cons_of_mem _ ha))
      ⟨h.cells ++ [some fresh]⟩
    have hnext : Heap.next ⟨h.cells ++ [some fresh]⟩ = h.next + 1 := List.length_append
    rw [hnext] at hg hnew
    have hbs : buffers (.output b (.array rank elem) :: inner) = b :: buffers inner := rfl
    have hself : standIn h.next (b :: buffers inner) b = ⟨h.next⟩ := if_pos rfl
    have hother : ∀ c ∈ buffers inner,
        standIn h.next (b :: buffers inner) c = standIn (h.next + 1) (buffers inner) c :=
      fun c hc => if_neg fun he : c = b => hb (he ▸ hc)
    refine ⟨g, ?_, fun c y hc => ?_, fun c hc y hy => ?_⟩
    · have hshapes : home.shapesOf (.output b (.array rank elem) :: inner) =
          x.shape :: home.shapesOf inner := by simp [Heap.shapesOf, hbs, hx]
      have hrename : inner.map (rename (standIn h.next (b :: buffers inner))) =
          inner.map (rename (standIn (h.next + 1) (buffers inner))) := by
        refine List.map_congr_left fun a ha => ?_
        obtain ⟨c, rank', elem', _, rfl, _⟩ := hi a (List.mem_cons_of_mem _ ha)
        rw [rename, rename, hother c (mem_buffers.2 ⟨_, ha, rfl⟩)]
      rw [hshapes, hbs, List.map_cons, rename, hself, hrename]
      exact Action.bind_eq_ok_iff.2 ⟨_, _, Heap.alloc_eq_ok hz x.shape h,
        Action.bind_eq_ok_iff.2 ⟨_, g, hg, rfl⟩⟩
    · exact hold c y ((Heap.find?_insert_of_lt (Heap.number_lt_next hc) _).trans hc)
    · rw [hbs] at hc ⊢
      rcases List.mem_cons.1 hc with rfl | hc
      · rw [hself]
        cases hx.symm.trans hy
        exact ⟨fresh, hold _ _ (Heap.find?_insert_next h fresh), rfl, List.length_replicate⟩
      · rw [hother c hc]
        exact hnew c hc y hy

theorem find?_freeAll (temporaries : List Actual) (h : Heap) (b : BufferId) :
    (freeAll temporaries h).find? b = if b ∈ buffers temporaries then none else h.find? b :=
  h.find?_foldl_free (buffers temporaries) b

theorem run_of_allocate {Op : Type} [Executable Op] {c : Cluster Op}
    {args temporaries : List Actual} {shapes : List Shape} {h g : Heap}
    (hl : c.intermediates.length = shapes.length)
    (ha : allocate (c.intermediates.zip shapes) h = .ok temporaries g) :
    c.run args shapes h =
      Action.afterwards (freeAll temporaries) (c.runLeaves args temporaries) g := by
  unfold run
  rw [if_neg (not_not_intro hl)]
  simp only [bind, EStateM.bind, ha]

end Cluster

end ArrayFusion

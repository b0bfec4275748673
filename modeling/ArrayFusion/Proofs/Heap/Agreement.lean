import ArrayFusion.Heap
import ArrayFusion.Proofs.Coupling
import ArrayFusion.Proofs.Outcome
set_option autoImplicit false

/-!
Heaps that agree up to the names of buffers. The shapes agree everywhere, the
elements where they are known to: a temporary starts out with zeros whatever the
buffer holds for which it stands in.
-/

namespace ArrayFusion

namespace Heap

variable {h : Heap} {b c : BufferId} {x : Buffer}

theorem number_lt_next (hb : h.find? b = some x) : b.number < h.next := by
  cases hc : h.cells[b.number]? with
  | none => simp [find?, hc] at hb
  | some cell => exact (List.getElem?_eq_some_iff.1 hc).1

theorem find?_set_self (hb : b.number < h.next) (cell : Option Buffer) :
    Heap.find? ⟨h.cells.set b.number cell⟩ b = cell := by
  unfold find?
  rw [List.getElem?_set_self hb]
  rfl

theorem find?_set_of_ne (hne : c ≠ b) (cell : Option Buffer) :
    Heap.find? ⟨h.cells.set b.number cell⟩ c = h.find? c := by
  unfold find?
  rw [List.getElem?_set_ne]
  intro he
  exact hne (by cases b ; cases c ; simp_all)

theorem find?_set (hb : b.number < h.next) (cell : Option Buffer) (c : BufferId) :
    Heap.find? ⟨h.cells.set b.number cell⟩ c = if c = b then cell else h.find? c := by
  by_cases hc : c = b
  · subst hc
    rw [if_pos rfl, find?_set_self hb]
  · rw [if_neg hc, find?_set_of_ne hc]

theorem find?_insert (h : Heap) (x : Buffer) (b : BufferId) :
    Heap.find? ⟨h.cells ++ [some x]⟩ b = if b = ⟨h.next⟩ then some x else h.find? b := by
  by_cases hb : b = ⟨h.next⟩
  · subst hb
    rw [if_pos rfl]
    simp [find?, next]
  · have hne : b.number ≠ h.cells.length := fun he => hb (by cases b ; cases he ; rfl)
    rw [if_neg hb]
    unfold find?
    rcases Nat.lt_or_gt_of_ne hne with hlt | hgt
    · rw [List.getElem?_append_left hlt]
    · have hout : (h.cells ++ [some x]).length ≤ b.number := List.length_append ▸ hgt
      rw [List.getElem?_eq_none hout, List.getElem?_eq_none (Nat.le_of_lt hgt)]

theorem wellSized_insert (hs : h.WellSized) (hx : x.data.length = x.shape.volume) :
    WellSized ⟨h.cells ++ [some x]⟩ := by
  intro b y hy
  rw [find?_insert] at hy
  split at hy
  · cases hy
    exact hx
  · exact hs b y hy

theorem buffer_of_find? (hb : h.find? b = some x) : h.buffer b = .ok x := by
  simp only [buffer, hb]

theorem find?_of_buffer (hb : h.buffer b = .ok x) : h.find? b = some x := by
  unfold buffer at hb
  split at hb
  · cases hb
    assumption
  · cases hb

theorem read_of_find? (hb : h.find? b = some x) (i : Nat) :
    h.read b i = match x.data[i]? with
      | some v => .ok v
      | none => .error (.outOfRange i x.data.length) := by
  simp only [read, buffer_of_find? hb]
  rfl

end Heap

/-- The second buffer has the shape of the first one, and the same elements
wherever they are known. -/
structure Buffer.Alike (known : Nat → Prop) (x y : Buffer) : Prop where
  shape : y.shape = x.shape
  length_left : x.data.length = x.shape.volume
  length_right : y.data.length = x.shape.volume
  data : ∀ i, known i → y.data[i]? = x.data[i]?

theorem Buffer.Alike.eq {known : Nat → Prop} {x y : Buffer} (h : x.Alike known y)
    (hk : ∀ i, known i) : y = x := by
  obtain ⟨shape, data⟩ := x
  obtain ⟨shape', data'⟩ := y
  have hs : shape' = shape := h.shape
  have hd : data' = data := List.ext_getElem? fun i => h.data i (hk i)
  rw [hs, hd]

structure Renaming where
  dom : BufferId → Prop
  map : BufferId → BufferId
  inj : ∀ {b c : BufferId}, dom b → dom c → map b = map c → b = c

/-- Each buffer that is renamed is live in both heaps and alike in them. -/
def Heap.Agrees (ρ : Renaming) (known : BufferId → Nat → Prop) (h g : Heap) : Prop :=
  ∀ b, ρ.dom b → ∃ x y, h.find? b = some x ∧ g.find? (ρ.map b) = some y ∧ x.Alike (known b) y

namespace Heap.Agrees

variable {ρ : Renaming} {known : BufferId → Nat → Prop} {h g : Heap} {b : BufferId}

theorem mono {known' : BufferId → Nat → Prop} (ha : Agrees ρ known h g)
    (hk : ∀ b, ρ.dom b → ∀ i, known' b i → known b i) : Agrees ρ known' h g := by
  intro b hb
  obtain ⟨x, y, hx, hy, hxy⟩ := ha b hb
  exact ⟨x, y, hx, hy, hxy.shape, hxy.length_left, hxy.length_right,
    fun i hi => hxy.data i (hk b hb i hi)⟩

theorem read_eq (ha : Agrees ρ known h g) (hb : ρ.dom b) {i : Nat} (hi : known b i) :
    g.read (ρ.map b) i = h.read b i := by
  obtain ⟨x, y, hx, hy, hxy⟩ := ha b hb
  rw [read_of_find? hx, read_of_find? hy, hxy.data i hi, hxy.length_left, hxy.length_right]

theorem write_coupled (known : BufferId → Nat → Prop) (hb : ρ.dom b) (i : Nat) (v : Literal) :
    Action.Coupled True (Agrees ρ known)
      (fun _ _ => Agrees ρ fun c j => known c j ∨ c = b ∧ j = i) (Agrees ρ known)
      (Heap.write b i v) (Heap.write (ρ.map b) i v) := by
  intro h g ha
  obtain ⟨x, y, hx, hy, hxy⟩ := ha b hb
  have hlen : y.data.length = x.data.length := hxy.length_right.trans hxy.length_left.symm
  simp only [Heap.write, hx, hy, hlen]
  by_cases hlt : i < x.data.length
  · simp only [if_pos hlt]
    intro c hc
    by_cases hcb : c = b
    · subst hcb
      refine ⟨_, _, find?_set_self (number_lt_next hx) _, find?_set_self (number_lt_next hy) _,
        hxy.shape, ?_, ?_, fun j hj => ?_⟩
      · exact (List.length_set ..).trans hxy.length_left
      · exact (List.length_set ..).trans hxy.length_right
      · by_cases hji : i = j
        · subst hji
          rw [List.getElem?_set_self (hlen ▸ hlt), List.getElem?_set_self hlt]
        · rw [List.getElem?_set_ne hji, List.getElem?_set_ne hji]
          exact hxy.data j (hj.resolve_right fun hj => hji hj.2.symm)
    · obtain ⟨x', y', hx', hy', hxy'⟩ := ha c hc
      refine ⟨x', y', (find?_set_of_ne hcb _).trans hx', ?_, hxy'.shape, hxy'.length_left,
        hxy'.length_right, fun j hj => hxy'.data j (hj.resolve_right fun hj => hcb hj.1)⟩
      exact (find?_set_of_ne (fun he => hcb (ρ.inj hc hb he)) _).trans hy'
  · simp only [if_neg hlt]
    exact fun _ => ⟨trivial, ha⟩

theorem mapM_buffer (ha : Agrees ρ known h g) {bs : List BufferId} (hb : ∀ b ∈ bs, ρ.dom b) :
    ∃ xs ys, bs.mapM h.buffer = .ok xs ∧ (bs.map ρ.map).mapM g.buffer = .ok ys ∧
      ys.map Buffer.shape = xs.map Buffer.shape := by
  induction bs with
  | nil => exact ⟨[], [], rfl, rfl, rfl⟩
  | cons b bs ih =>
    obtain ⟨xs, ys, hxs, hys, hs⟩ := ih fun c hc => hb c (List.mem_cons_of_mem _ hc)
    obtain ⟨x, y, hx, hy, hxy⟩ := ha b (hb b (List.mem_cons_self ..))
    refine ⟨x :: xs, y :: ys, mapM_cons_eq_ok.2 ⟨x, xs, buffer_of_find? hx, hxs, rfl⟩,
      mapM_cons_eq_ok.2 ⟨y, ys, buffer_of_find? hy, hys, rfl⟩, ?_⟩
    rw [List.map_cons, List.map_cons, hxy.shape, hs]

theorem commonVolume_eq (ha : Agrees ρ known h g) {bs : List BufferId}
    (hb : ∀ b ∈ bs, ρ.dom b) : g.commonVolume (bs.map ρ.map) = h.commonVolume bs := by
  obtain ⟨xs, ys, hxs, hys, hs⟩ := ha.mapM_buffer hb
  simp only [commonVolume, hxs, hys, bind, Except.bind, hs]

end Heap.Agrees

namespace Heap

variable {h : Heap} {bs : List BufferId} {n : Nat}

theorem exists_buffers_iff {P : Buffer → Prop} :
    (∃ xs, bs.mapM h.buffer = .ok xs ∧ ∀ x ∈ xs, P x) ↔
      ∀ b ∈ bs, ∃ x, h.find? b = some x ∧ P x := by
  induction bs with
  | nil => simp [pure, Except.pure]
  | cons b bs ih =>
    rw [List.forall_mem_cons, ← ih]
    constructor
    · rintro ⟨xs, hxs, hP⟩
      obtain ⟨x, ys, hx, hys, rfl⟩ := mapM_cons_eq_ok.1 hxs
      obtain ⟨hPx, hPys⟩ := List.forall_mem_cons.1 hP
      exact ⟨⟨x, find?_of_buffer hx, hPx⟩, ys, hys, hPys⟩
    · rintro ⟨⟨x, hx, hPx⟩, ys, hys, hPys⟩
      exact ⟨x :: ys, mapM_cons_eq_ok.2 ⟨x, ys, buffer_of_find? hx, hys, rfl⟩,
        List.forall_mem_cons.2 ⟨hPx, hPys⟩⟩

theorem ne_nil_of_mapM_buffer (hne : bs ≠ []) {xs : List Buffer}
    (hxs : bs.mapM h.buffer = .ok xs) : xs ≠ [] := by
  rintro rfl
  cases bs with
  | nil => exact hne rfl
  | cons b bs =>
    obtain ⟨_, _, _, _, hxs⟩ := mapM_cons_eq_ok.1 hxs
    cases hxs

theorem commonVolume_eq_ok_iff (hne : bs ≠ []) :
    h.commonVolume bs = .ok n ↔
      ∃ s : Shape, s.volume = n ∧ ∀ b ∈ bs, ∃ x, h.find? b = some x ∧ x.shape = s := by
  simp only [← exists_buffers_iff]
  unfold commonVolume
  rw [bind_eq_ok]
  constructor
  · rintro ⟨xs, hxs, hn⟩
    cases xs with
    | nil => exact (ne_nil_of_mapM_buffer hne hxs rfl).elim
    | cons x xs =>
      obtain ⟨hall, hn⟩ := ite_eq_ok.1 hn
      cases hn
      refine ⟨x.shape, rfl, _, hxs, ?_⟩
      simpa using hall
  · rintro ⟨s, rfl, xs, hxs, hs⟩
    refine ⟨xs, hxs, ?_⟩
    cases xs with
    | nil => exact (ne_nil_of_mapM_buffer hne hxs rfl).elim
    | cons x xs =>
      obtain ⟨rfl, hs⟩ := List.forall_mem_cons.1 hs
      exact ite_eq_ok.2 ⟨by simpa using hs, rfl⟩

theorem volume_of_commonVolume (hn : h.commonVolume bs = .ok n) {b : BufferId} (hb : b ∈ bs)
    {x : Buffer} (hx : h.find? b = some x) : x.shape.volume = n := by
  obtain ⟨s, rfl, hs⟩ := (commonVolume_eq_ok_iff (List.ne_nil_of_mem hb)).1 hn
  obtain ⟨y, hy, rfl⟩ := hs b hb
  cases hx.symm.trans hy
  rfl

end Heap

end ArrayFusion

import ArrayFusion.Proofs.Frame
import ArrayFusion.Proofs.Kernel.Simulation
set_option autoImplicit false

/-!
What a loop over a buffer leaves in it: elements in the first places and in the others what
there was. A position is read for the last time when it is about to be written, so it does
not matter to the elements whether the buffer is itself what they are computed from.
-/

namespace ArrayFusion

def Buffer.overwrite (x : Buffer) (done : List Literal) : Buffer :=
  ⟨x.shape, done ++ x.data.drop done.length⟩

namespace Buffer

variable {x : Buffer} {done : List Literal}

theorem overwrite_nil (x : Buffer) : x.overwrite [] = x := rfl

theorem overwrite_of_length_eq (h : done.length = x.data.length) :
    x.overwrite done = ⟨x.shape, done⟩ := by
  rw [overwrite, h, List.drop_length, List.append_nil]

theorem length_overwrite (h : done.length ≤ x.data.length) :
    (x.overwrite done).data.length = x.data.length := by
  rw [overwrite, List.length_append, List.length_drop, Nat.add_sub_cancel' h]

theorem getElem?_overwrite (x : Buffer) (done : List Literal) :
    (x.overwrite done).data[done.length]? = x.data[done.length]? := by
  rw [overwrite, List.getElem?_append_right (Nat.le_refl _), Nat.sub_self, List.getElem?_drop,
    Nat.add_zero]

theorem set_overwrite (h : done.length < x.data.length) (v : Literal) :
    (x.overwrite done).data.set done.length v = (x.overwrite (done ++ [v])).data := by
  rw [overwrite, overwrite, List.set_append_right _ _ (Nat.le_refl _), Nat.sub_self,
    List.drop_eq_getElem_cons h, List.set_cons_zero, List.length_append, List.append_assoc]
  rfl

end Buffer

namespace Heap

def put (h : Heap) (b : BufferId) (x : Buffer) : Heap := ⟨h.cells.set b.number (some x)⟩

variable {h : Heap} {b c : BufferId} {x : Buffer}

theorem find?_put_self (hb : h.find? b = some x) (y : Buffer) : (h.put b y).find? b = some y :=
  find?_set_self (number_lt_next hb) _

theorem find?_put_of_ne (hc : c ≠ b) (y : Buffer) : (h.put b y).find? c = h.find? c :=
  find?_set_of_ne hc _

theorem put_put (h : Heap) (b : BufferId) (x y : Buffer) : (h.put b x).put b y = h.put b y :=
  congrArg Heap.mk (List.set_set ..)

theorem put_eq_self (hb : h.find? b = some x) : h.put b x = h := by
  have hcell : h.cells[b.number]? = some (some x) := by
    unfold find? at hb
    cases hc : h.cells[b.number]? with
    | none => simp [hc] at hb
    | some cell =>
      rw [hc] at hb
      exact congrArg some hb
  obtain ⟨hlt, hget⟩ := List.getElem?_eq_some_iff.1 hcell
  refine congrArg Heap.mk ?_
  rw [← hget]
  exact List.set_getElem_self hlt

theorem outcome_write {i : Nat} (hb : h.find? b = some x) (hi : i < x.data.length) (v : Literal) :
    (write b i v).outcome h = (.ok (), h.put b ⟨x.shape, x.data.set i v⟩) := by
  unfold Action.outcome write
  rw [hb]
  simp only [if_pos hi]
  rfl

theorem read_overwrite {done : List Literal} (hb : h.find? b = some x)
    (hd : done.length ≤ x.data.length) (c : BufferId) :
    (h.put b (x.overwrite done)).read c done.length = h.read c done.length := by
  by_cases hc : c = b
  · subst hc
    rw [read_of_find? hb, read_of_find? (find?_put_self hb _), Buffer.getElem?_overwrite,
      Buffer.length_overwrite hd]
  · simp only [read, buffer, find?_put_of_ne hc]

def Room (h : Heap) (s : Shape) (b : BufferId) : Prop :=
  ∃ x, h.find? b = some x ∧ x.shape = s ∧ x.data.length = s.volume

variable {s : Shape}

theorem Room.find?_put (hb : h.Room s b) (y : Buffer) : (h.put b y).find? b = some y := by
  obtain ⟨x, hx, _⟩ := hb
  exact find?_put_self hx y

theorem Room.put (hb : h.Room s b) (hc : h.Room s c) {ws : List Literal}
    (hws : ws.length = s.volume) : (h.put c ⟨s, ws⟩).Room s b := by
  by_cases he : b = c
  · rw [he]
    exact ⟨_, hc.find?_put _, rfl, hws⟩
  · obtain ⟨x, hx, hs⟩ := hb
    exact ⟨x, (find?_put_of_ne he _).trans hx, hs⟩

end Heap

namespace Kernel

def Computed (e : Nat → Except Fault Literal) (ws : List Literal) : Prop :=
  ∀ i w, ws[i]? = some w → e i = .ok w

/-- All `n` elements, or those before the first one that faults. -/
inductive Elements (e : Nat → Except Fault Literal) (n : Nat) :
    List Literal → Except Fault Unit → Prop where
  | all {ws : List Literal} : Computed e ws → ws.length = n → Elements e n ws (.ok ())
  | before {ws : List Literal} {fault : Fault} : Computed e ws → ws.length < n →
      e ws.length = .error fault → Elements e n ws (.error fault)

variable {e : Nat → Except Fault Literal} {us ws : List Literal} {n : Nat} {r : Except Fault Unit}

theorem computed_nil (e : Nat → Except Fault Literal) : Computed e [] := by
  intro i w hi
  cases hi

theorem Computed.push {v : Literal} (h : Computed e ws) (hv : e ws.length = .ok v) :
    Computed e (ws ++ [v]) := by
  intro i w hi
  rw [List.getElem?_append] at hi
  split at hi
  · exact h i w hi
  · obtain ⟨hlt, rfl⟩ := List.getElem?_eq_some_iff.1 hi
    have hi : i = ws.length := by
      rw [List.length_singleton] at hlt
      omega
    subst hi
    simpa using hv

theorem Elements.computed (h : Elements e n ws r) : Computed e ws := by
  cases h <;> assumption

theorem Elements.length_le (h : Elements e n ws r) : ws.length ≤ n := by
  cases h <;> omega

theorem Elements.length_max (h : Elements e n ws r) (hu : Computed e us) (hn : us.length ≤ n) :
    us.length ≤ ws.length := by
  cases h with
  | all _ hl => exact hl ▸ hn
  | before _ _ he =>
    refine Nat.not_lt.1 fun hlt => ?_
    rw [hu _ _ (List.getElem?_eq_getElem hlt)] at he
    cases he

theorem Elements.unique {r' : Except Fault Unit} (h : Elements e n ws r)
    (h' : Elements e n us r') : ws = us ∧ r = r' := by
  have hlen : ws.length = us.length :=
    Nat.le_antisymm (h'.length_max h.computed h.length_le) (h.length_max h'.computed h'.length_le)
  obtain rfl : ws = us := by
    refine List.ext_getElem hlen fun i hi hi' => ?_
    have he := h.computed i _ (List.getElem?_eq_getElem hi)
    rw [h'.computed i _ (List.getElem?_eq_getElem hi')] at he
    exact (Except.ok.inj he).symm
  refine ⟨rfl, ?_⟩
  cases h with
  | all _ hn =>
    cases h' with
    | all _ _ => rfl
    | before _ hlt _ => exact (Nat.ne_of_lt hlt hn).elim
  | before _ hlt he =>
    cases h' with
    | all _ hn => exact (Nat.ne_of_lt hlt hn).elim
    | before _ _ he' =>
      rw [he] at he'
      exact congrArg Except.error (Except.error.inj he')

open Heap

/-- The loop over an output, some of whose elements are done. What it puts next depends on
the heap as it is by then, and yet is what the first contents give. -/
theorem outcome_fill {output : BufferId} {h : Heap} {x : Buffer} (hx : h.find? output = some x)
    {elementAt : Heap → Nat → Except Fault Literal}
    (he : ∀ done : List Literal, done.length < x.data.length →
      elementAt (h.put output (x.overwrite done)) done.length = e done.length)
    (todo : Nat) {done : List Literal} (hn : done.length + todo ≤ x.data.length)
    (hd : Computed e done) :
    ∃ ws r, (fill output elementAt todo done.length).outcome (h.put output (x.overwrite done)) =
      (r, h.put output (x.overwrite ws)) ∧ Elements e (done.length + todo) ws r := by
  induction todo generalizing done with
  | zero => exact ⟨done, _, rfl, .all hd rfl⟩
  | succ todo ih =>
    have hlt : done.length < x.data.length := by omega
    rw [fill, Action.outcome_bind, Action.outcome_observe, he done hlt]
    cases hv : e done.length with
    | error fault => exact ⟨done, _, rfl, .before hd (by omega) hv⟩
    | ok v =>
      have hwrite := outcome_write (find?_put_self hx (x.overwrite done))
        (by rwa [Buffer.length_overwrite (Nat.le_of_lt hlt)]) v
      rw [Buffer.set_overwrite hlt, put_put] at hwrite
      have hlen : (done ++ [v]).length = done.length + 1 := List.length_append ..
      have hrest := @ih (done ++ [v]) (by omega) (hd.push hv)
      rw [hlen, Nat.add_assoc, Nat.add_comm 1] at hrest
      simp only [Action.outcome_bind, hwrite]
      exact hrest

end Kernel

end ArrayFusion

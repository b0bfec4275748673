import ArrayFusion.Kernel.Execute
import ArrayFusion.Proofs.Expr.Bounds
import ArrayFusion.Proofs.Heap.Agreement
set_option autoImplicit false

namespace ArrayFusion

open ArrayFusion.Action

theorem Answers.mapM {α β : Type} {E : Fault → Prop} {f : α → Except Fault β}
    (h : ∀ a, Answers (fun _ => True) E (f a)) (l : List α) :
    Answers (fun _ => True) E (l.mapM f) := by
  induction l with
  | nil => trivial
  | cons a l ih =>
    rw [List.mapM_cons]
    exact (h a).bind fun _ _ => ih.bind fun _ _ => trivial

namespace Heap

variable {h : Heap} {bs : List BufferId} {b : BufferId} {n i : Nat}

structure Sized (bs : List BufferId) (n : Nat) (h : Heap) : Prop where
  wellSized : h.WellSized
  length : ∀ b ∈ bs, ∀ x, h.find? b = some x → x.data.length = n

theorem buffer_inBounds (h : Heap) (b : BufferId) :
    Answers (fun x => h.find? b = some x) Fault.InBounds (h.buffer b) := by
  unfold buffer
  cases hb : h.find? b with
  | none => trivial
  | some x => exact rfl

theorem buffer_sized (hs : h.WellSized) (b : BufferId) :
    Answers (fun x => h.Sized [b] x.data.length) Fault.InBounds (h.buffer b) := by
  refine (h.buffer_inBounds b).mono fun x hx => ⟨hs, fun c hc y hy => ?_⟩
  rw [List.mem_singleton.1 hc, hx] at hy
  cases hy
  rfl

theorem commonVolume_inBounds (hs : h.WellSized) (bs : List BufferId) :
    Answers (fun n => h.Sized bs n) Fault.InBounds (h.commonVolume bs) := by
  have hmap : Answers (fun _ => True) Fault.InBounds (bs.mapM h.buffer) :=
    .mapM (fun b => (h.buffer_inBounds b).mono fun _ _ => trivial) bs
  cases hv : h.commonVolume bs with
  | ok n =>
    exact ⟨hs, fun b hb x hx => (hs b x hx).trans (volume_of_commonVolume hv hb hx)⟩
  | error e =>
    have hfault : Answers (fun _ => True) Fault.InBounds (h.commonVolume bs) := by
      refine hmap.bind fun xs _ => ?_
      split
      · trivial
      · split <;> trivial
    rw [hv] at hfault
    exact hfault

theorem read_inBounds (hs : h.Sized bs n) (hb : b ∈ bs) (hi : i < n) :
    Answers (fun _ => True) Fault.InBounds (h.read b i) := by
  refine (h.buffer_inBounds b).bind fun x hx => ?_
  have hlt : i < x.data.length := by rwa [hs.length b hb x hx]
  rw [List.getElem?_eq_getElem hlt]
  trivial

theorem write_inBounds (hb : b ∈ bs) (hi : i < n) (v : Literal) :
    Keeps (Sized bs n) Fault.InBounds (write b i v) := by
  intro h hs
  unfold write
  cases hx : h.find? b with
  | none => trivial
  | some x =>
    have hlt : i < x.data.length := by rwa [hs.length b hb x hx]
    have hfind : ∀ c y, Heap.find? ⟨h.cells.set b.number (some ⟨x.shape, x.data.set i v⟩)⟩ c =
        some y → ∃ z, h.find? c = some z ∧ y.shape = z.shape ∧ y.data.length = z.data.length := by
      intro c y hy
      rw [find?_set (number_lt_next hx)] at hy
      split at hy
      · rename_i hc
        cases hy
        exact ⟨x, hc ▸ hx, rfl, List.length_set ..⟩
      · exact ⟨y, hy, rfl, rfl⟩
    simp only [if_pos hlt]
    refine ⟨fun c y hy => ?_, fun c hc y hy => ?_⟩
    · obtain ⟨z, hz, hshape, hlen⟩ := hfind c y hy
      rw [hlen, hshape, hs.wellSized c z hz]
    · obtain ⟨z, hz, _, hlen⟩ := hfind c y hy
      rw [hlen, hs.length c hc z hz]

theorem zeroOf_inBounds (elem : Ty) : Answers (fun _ => True) Fault.InBounds (zeroOf elem) := by
  unfold zeroOf
  split <;> trivial

theorem alloc_inBounds (elem : Ty) (shape : Shape) :
    Keeps WellSized Fault.InBounds (alloc elem shape) :=
  (keeps_ofExcept (zeroOf_inBounds elem)).bind fun zero _ hs =>
    wellSized_insert (x := ⟨shape, List.replicate shape.volume zero⟩) hs List.length_replicate

end Heap

namespace Kernel

variable {f : Fn} {bs : List BufferId} {n : Nat}

theorem element_inBounds (h : f.issues [] = []) (heap : Heap) (args : List Literal) :
    Answers (fun _ => True) Fault.InBounds (element f heap args) :=
  (Fn.apply_inBounds h heap _).bind fun v _ => v.asLiteral_inBounds

theorem fill_inBounds {output : BufferId} (hb : output ∈ bs)
    {elementAt : Heap → Nat → Except Fault Literal}
    (hf : ∀ h : Heap, h.Sized bs n → ∀ i < n,
      Answers (fun _ => True) Fault.InBounds (elementAt h i))
    {todo i : Nat} (hi : i + todo = n) :
    Keeps (Heap.Sized bs n) Fault.InBounds (fill output elementAt todo i) := by
  induction todo generalizing i with
  | zero => exact keeps_pure ()
  | succ todo ih =>
    have hlt : i < n := by omega
    exact (keeps_observe fun h hs => hf h hs i hlt).bind fun x =>
      (Heap.write_inBounds hb hlt x).bind fun _ => ih (by omega)

theorem elementwise_inBounds {output : BufferId} (hb : output ∈ bs)
    {elementAt : Heap → Nat → Except Fault Literal}
    (hf : ∀ n, ∀ h : Heap, h.Sized bs n → ∀ i < n,
      Answers (fun _ => True) Fault.InBounds (elementAt h i)) :
    Keeps Heap.WellSized Fault.InBounds (do
      let n ← observe (·.commonVolume bs)
      fill output elementAt n 0) := by
  refine Meets.bind (meets_observe fun h hs => Heap.commonVolume_inBounds hs bs) fun n => ?_
  have hfill := fill_inBounds hb (hf n) (Nat.zero_add n)
  exact hfill.mono (fun _ hs => hs) fun _ _ hs => hs.wellSized

theorem execute_inBounds {k : Kernel} (h : k.fn.issues [] = []) (args : List Actual) :
    Keeps Heap.WellSized Fault.InBounds (k.execute args) := by
  have hcheck : Answers (fun _ => True) Fault.InBounds (k.signature.check args) := by
    unfold Signature.check
    split <;> trivial
  refine (keeps_ofExcept hcheck).bind fun _ => ?_
  split
  · rename_i f input output _
    refine elementwise_inBounds (by simp) fun n g hs i hi => ?_
    exact (Heap.read_inBounds hs (by simp) hi).bind fun x _ => element_inBounds h g [x]
  · rename_i f left right output _
    refine elementwise_inBounds (by simp) fun n g hs i hi => ?_
    exact (Heap.read_inBounds hs (by simp) hi).bind fun x _ =>
      (Heap.read_inBounds hs (by simp) hi).bind fun y _ => element_inBounds h g [x, y]
  · rename_i f output _
    refine Meets.bind (meets_observe fun g hs => Heap.buffer_sized hs output) fun b => ?_
    have hfill := fill_inBounds (List.mem_singleton_self output)
      (fun g _ i _ => element_inBounds h g [.int (Int64.ofNat i)]) (Nat.zero_add b.data.length)
    exact hfill.mono (fun _ hs => hs) fun _ _ hs => hs.wellSized
  · exact keeps_throw trivial

end Kernel

end ArrayFusion

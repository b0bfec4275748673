import ArrayFusion.Kernel.Execute
import ArrayFusion.Proofs.Frame
import ArrayFusion.Proofs.Kernel.Arguments
set_option autoImplicit false

namespace ArrayFusion

namespace Kernel

variable {F : Frame Heap}

theorem fill_obeys {output : BufferId} (hw : ∀ i v, (Heap.write output i v).Obeys F)
    (elementAt : Heap → Nat → Except Fault Literal) (todo i : Nat) :
    (fill output elementAt todo i).Obeys F := by
  induction todo generalizing i with
  | zero => exact Action.obeys_pure ()
  | succ todo ih =>
    exact (Action.obeys_observe _).bind fun x => (hw i x).bind fun _ => ih (i + 1)

theorem execute_obeys (k : Kernel) {args : List Actual}
    (hw : ∀ b t, .output b t ∈ args → ∀ i v, (Heap.write b i v).Obeys F) :
    (k.execute args).Obeys F := by
  unfold execute
  refine Action.obeys_ofExcept_bind fun _ hc => ?_
  cases takes_of_signature (Signature.check_eq_ok_iff.1 hc) with
  | map rank a b f x y =>
    have hw := hw y (.array rank b) (by simp)
    exact (Action.obeys_observe _).bind fun n => fill_obeys hw _ n 0
  | zipWith rank a b c f x y z =>
    have hw := hw z (.array rank c) (by simp)
    exact (Action.obeys_observe _).bind fun n => fill_obeys hw _ n 0
  | generate rank a f x =>
    have hw := hw x (.array rank a) (by simp)
    exact (Action.obeys_observe _).bind fun b => fill_obeys hw _ b.data.length 0

end Kernel

end ArrayFusion

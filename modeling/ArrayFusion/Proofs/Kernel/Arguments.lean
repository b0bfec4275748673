import ArrayFusion.Kernel
import ArrayFusion.Proofs.Actual
set_option autoImplicit false

namespace ArrayFusion

namespace Actual

def reads (args : List Actual) : List BufferId :=
  args.filterMap fun
    | .input b _ => some b
    | _ => none

def writes (args : List Actual) : List BufferId :=
  args.filterMap fun
    | .output b _ => some b
    | _ => none

end Actual

namespace Kernel

inductive Takes : Kernel → List Actual → Prop where
  | map (rank : Nat) (a b : Ty) (f : Fn) (input output : BufferId) :
    Takes (.map rank a b f) [.input input (.array rank a), .output output (.array rank b)]
  | zipWith (rank : Nat) (a b c : Ty) (f : Fn) (left right output : BufferId) :
    Takes (.zipWith rank a b c f) [.input left (.array rank a), .input right (.array rank b),
      .output output (.array rank c)]
  | generate (rank : Nat) (a : Ty) (f : Fn) (output : BufferId) :
    Takes (.generate rank a f) [.output output (.array rank a)]

theorem takes_of_signature {k : Kernel} {args : List Actual}
    (h : k.signature = signatureOf args) : k.Takes args := by
  cases k with
  | map rank a b f =>
    obtain ⟨_, _, rfl, hx, h⟩ := signatureOf_eq_cons h.symm
    obtain ⟨_, _, rfl, hy, h⟩ := signatureOf_eq_cons h
    obtain rfl := signatureOf_eq_nil h
    obtain ⟨x, rfl⟩ := Actual.input_of_param hx
    obtain ⟨y, rfl⟩ := Actual.output_of_param hy
    exact .map rank a b f x y
  | zipWith rank a b c f =>
    obtain ⟨_, _, rfl, hx, h⟩ := signatureOf_eq_cons h.symm
    obtain ⟨_, _, rfl, hy, h⟩ := signatureOf_eq_cons h
    obtain ⟨_, _, rfl, hz, h⟩ := signatureOf_eq_cons h
    obtain rfl := signatureOf_eq_nil h
    obtain ⟨x, rfl⟩ := Actual.input_of_param hx
    obtain ⟨y, rfl⟩ := Actual.input_of_param hy
    obtain ⟨z, rfl⟩ := Actual.output_of_param hz
    exact .zipWith rank a b c f x y z
  | generate rank a f =>
    obtain ⟨_, _, rfl, hx, h⟩ := signatureOf_eq_cons h.symm
    obtain rfl := signatureOf_eq_nil h
    obtain ⟨x, rfl⟩ := Actual.output_of_param hx
    exact .generate rank a f x

end Kernel

end ArrayFusion

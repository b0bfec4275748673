import ArrayFusion.Actual
set_option autoImplicit false

namespace ArrayFusion

section Lists

variable {α : Type} [Argument α]

theorem signatureOf_eq_nil {args : List α} (h : signatureOf args = []) : args = [] :=
  List.map_eq_nil_iff.1 h

theorem signatureOf_eq_cons {args : List α} {p : Param} {s : Signature}
    (h : signatureOf args = p :: s) :
    ∃ a rest, args = a :: rest ∧ Argument.param a = p ∧ signatureOf rest = s :=
  List.map_eq_cons_iff.1 h

end Lists

namespace Actual

def buffers (args : List Actual) : List BufferId := args.filterMap buffer?

theorem mem_buffers {args : List Actual} {b : BufferId} :
    b ∈ buffers args ↔ ∃ a ∈ args, a.buffer? = some b := List.mem_filterMap

@[simp] theorem buffers_append (args rest : List Actual) :
    buffers (args ++ rest) = buffers args ++ buffers rest := List.filterMap_append ..

theorem not_mem_buffers_cons {a : Actual} {args : List Actual} {b : BufferId} :
    b ∉ buffers (a :: args) ↔ a.buffer? ≠ some b ∧ b ∉ buffers args := by
  cases h : a.buffer? <;> simp [buffers, h, eq_comm]

theorem nodup_buffers_cons {a : Actual} {args : List Actual} :
    (buffers (a :: args)).Nodup ↔
      (∀ b, a.buffer? = some b → b ∉ buffers args) ∧ (buffers args).Nodup := by
  cases h : a.buffer? <;> simp [buffers, h]

theorem output_of_param {a : Actual} {t : Ty} (h : a.param = ⟨.output, t⟩) :
    ∃ b, a = .output b t := by
  cases a <;> simp_all [param]

theorem input_of_param {a : Actual} {t : Ty} (h : a.param = ⟨.input, t⟩) :
    ∃ b, a = .input b t := by
  cases a <;> simp_all [param]

theorem buffer?_ne_of_output_not_mem {args : List Actual} {b c : BufferId} {t : Ty}
    (h : ∀ t, .output b t ∉ args) (hc : .output c t ∈ args) :
    (Actual.output c t).buffer? ≠ some b := by
  intro he
  cases he
  exact h t hc

theorem buffer?_ne_of_input_not_mem {args : List Actual} {b c : BufferId} {t : Ty}
    (h : ∀ t, .input b t ∉ args) (hc : .input c t ∈ args) :
    (Actual.input c t).buffer? ≠ some b := by
  intro he
  cases he
  exact h t hc

@[simp] theorem buffer?_toInput (a : Actual) : a.toInput.buffer? = a.buffer? := by
  cases a <;> rfl

theorem toInput_ne_output (a : Actual) (b : BufferId) (t : Ty) : a.toInput ≠ .output b t := by
  cases a <;> simp [toInput]

theorem eq_of_buffer?_eq {args : List Actual} (hn : (buffers args).Nodup) {x y : Actual}
    {b : BufferId} (hx : x ∈ args) (hy : y ∈ args) (hxb : x.buffer? = some b)
    (hyb : y.buffer? = some b) : x = y := by
  induction args with
  | nil => cases hx
  | cons a args ih =>
    obtain ⟨ha, hn⟩ := nodup_buffers_cons.1 hn
    rcases List.mem_cons.1 hx with hxa | hx <;> rcases List.mem_cons.1 hy with hya | hy
    · rw [hxa, hya]
    · exact absurd (mem_buffers.2 ⟨y, hy, hyb⟩) (ha b (hxa ▸ hxb))
    · exact absurd (mem_buffers.2 ⟨x, hx, hxb⟩) (ha b (hya ▸ hyb))
    · exact ih hn hx hy

def rename (f : BufferId → BufferId) : Actual → Actual
  | .input b t => .input (f b) t
  | .output b t => .output (f b) t
  | a => a

@[simp] theorem param_rename (f : BufferId → BufferId) (a : Actual) :
    (a.rename f).param = a.param := by cases a <;> rfl

@[simp] theorem toInput_rename (f : BufferId → BufferId) (a : Actual) :
    (a.rename f).toInput = a.toInput.rename f := by cases a <;> rfl

@[simp] theorem buffer?_rename (f : BufferId → BufferId) (a : Actual) :
    (a.rename f).buffer? = a.buffer?.map f := by cases a <;> rfl

theorem buffers_rename (f : BufferId → BufferId) (args : List Actual) :
    buffers (args.map (rename f)) = (buffers args).map f := by
  unfold buffers
  rw [List.filterMap_map, List.map_filterMap]
  exact congrArg (List.filterMap · args) (funext fun a => buffer?_rename f a)

theorem signatureOf_rename (f : BufferId → BufferId) (args : List Actual) :
    signatureOf (args.map (rename f)) = signatureOf args := by
  unfold signatureOf
  rw [List.map_map]
  exact List.map_congr_left fun a _ => param_rename f a

theorem rename_of_fixed {f : BufferId → BufferId} {a : Actual}
    (h : ∀ b, a.buffer? = some b → f b = b) : a.rename f = a := by
  cases a with
  | input b t | output b t => simp [rename, h b rfl]
  | scalar _ | function _ => rfl

end Actual

end ArrayFusion

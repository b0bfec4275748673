import ArrayFusion.Kernel
import ArrayFusion.Proofs.Program.Free
import ArrayFusion.Proofs.Program.Occurrences
set_option autoImplicit false

namespace ArrayFusion

variable {Op : Type} {m : Reindexing}

section Locals

/-- What a term has of its own: a binder of either level, or a scalar variable. -/
inductive Local where
  | binder (p : Pattern)
  | scalar (r : Ref)
  deriving DecidableEq, Repr

def Expr.locals : Expr → List Local
  | .var r => [.scalar r]
  | .const _ | .nil => []
  | .unary _ e | .fst e | .snd e | .read _ e | .param _ e => e.locals
  | .letIn p a b => a.locals ++ .binder p :: b.locals
  | .binary _ a b | .pair a b => a.locals ++ b.locals
  | .cond a b c => a.locals ++ (b.locals ++ c.locals)

def Fn.locals : Fn → List Local
  | .lam p f => .binder p :: f.locals
  | .body e => e.locals

def Operand.locals : Operand → List Local
  | .function f => f.locals
  | .scalar _ | .input _ _ | .output _ _ => []

def Program.locals : Program Op → List Local
  | .exec _ args => args.flatMap Operand.locals
  | .compute e => e.locals
  | .ret _ | .alloc _ _ => []
  | .letIn p a b => a.locals ++ .binder p :: b.locals
  | .cond _ a b => a.locals ++ b.locals

theorem Expr.Image.locals {e e' : Expr} (he : e.Image m e') : e'.locals = e.locals := by
  induction he with
  | var | const | nil => rfl
  | unary _ ih | fst _ ih | snd _ ih | read _ _ ih | param _ _ ih => exact ih
  | letIn _ _ iha ihb | binary _ _ iha ihb | pair _ _ iha ihb => simp [Expr.locals, iha, ihb]
  | cond _ _ _ iha ihb ihc => simp [Expr.locals, iha, ihb, ihc]

theorem Fn.Image.locals {f f' : Fn} (hf : f.Image m f') : f'.locals = f.locals := by
  induction hf with
  | lam _ ih => simp [Fn.locals, ih]
  | body he => exact he.locals

theorem Operand.Image.locals {o o' : Operand} (ho : o.Image m o') : o'.locals = o.locals := by
  cases ho with
  | scalar _ | input _ _ | output _ _ => rfl
  | function hf => exact hf.locals

theorem locals_imageOperands {os os' : List Operand}
    (hos : List.Forall₂ (Operand.Image m) os os') :
    os'.flatMap Operand.locals = os.flatMap Operand.locals := by
  induction hos with
  | nil => rfl
  | cons ho _ ih => simp [ho.locals, ih]

theorem Program.Image.locals {t t' : Program Op} (ht : t.Image m t') : t'.locals = t.locals := by
  induction ht with
  | exec ha => exact locals_imageOperands ha
  | ret _ | alloc _ => rfl
  | compute he => exact he.locals
  | letIn _ _ iha ihb | cond _ _ _ iha ihb => simp [Program.locals, iha, ihb]

end Locals

namespace Ref

def below? (n : Nat) (r : Ref) : Option Ref := if n ≤ r.index then some (r.lowered n) else none

theorem below?_eq_some_iff {n : Nat} {r s : Ref} : r.below? n = some s ↔ r = s.shifted n := by
  unfold below?
  split
  · rename_i hle
    constructor
    · rintro ⟨⟩
      exact (shifted_lowered hle).symm
    · rintro rfl
      rw [lowered_shifted]
  · rename_i hlt
    refine ⟨nofun, ?_⟩
    rintro rfl
    exact (hlt (Nat.le_add_left ..)).elim

@[simp] theorem below?_zero (r : Ref) : r.below? 0 = some r := below?_eq_some_iff.2 rfl

theorem below?_add (m n : Nat) (r : Ref) : r.below? (m + n) = (r.below? n).bind (below? m) := by
  ext s
  simp only [Option.bind_eq_some_iff, below?_eq_some_iff, ← shifted_shifted]
  simp

end Ref

theorem outerRefs_eq_filterMap (n : Nat) (rs : List Ref) :
    outerRefs n rs = rs.filterMap (Ref.below? n) := by
  induction rs with
  | nil => rfl
  | cons r rs ih =>
    by_cases hr : n ≤ r.index <;> simpa [outerRefs, Ref.below?, hr] using ih

/-- A reference to the array level as it stands in a program, with the binders around it
from the outermost to the innermost. -/
structure Site where
  around : List Pattern
  ref : Ref
  deriving DecidableEq, Repr

namespace Site

def depth (s : Site) : Nat := s.around.foldr (·.size + ·) 0

def inside (p : Pattern) (s : Site) : Site := ⟨p :: s.around, s.ref⟩

def outer? (s : Site) : Option Ref := s.ref.below? s.depth

theorem outer?_inside (p : Pattern) (s : Site) :
    (s.inside p).outer? = s.outer?.bind (Ref.below? p.size) := by
  rw [outer?, outer?, ← Ref.below?_add]
  rfl

variable {s s' : Site}

/-- The binders around are the same. A reference to a slot of one of them is what it was,
and from any other the map leads to the slot that is named now. -/
structure Follows (m : Reindexing) (s s' : Site) : Prop where
  around : s'.around = s.around
  bound : s.outer? = none → s'.ref = s.ref
  outer : ∀ r, s.outer? = some r → ∃ r', m r = some r' ∧ s'.outer? = some r'

/-- What a map does to a place under a binder, when it is sunk under the binder, it does
to the place as it is seen from outside of the binder. -/
theorem Follows.inside {p : Pattern} (h : Follows (m.under p) s s') :
    Follows m (s.inside p) (s'.inside p) where
  around := congrArg (p :: ·) h.around
  bound hnone := by
    cases hs : s.outer? with
    | none => exact h.bound hs
    | some r =>
      -- The reference is to a slot of this binder, so the sunk map sends it to itself.
      rw [outer?_inside, hs, Option.bind_some] at hnone
      have hlt : r.index < p.size := Nat.not_le.1 fun hle => by simp [Ref.below?, hle] at hnone
      obtain ⟨r', hm, hs'⟩ := h.outer r hs
      cases (Reindexing.sink_of_lt hlt).symm.trans hm
      have hdepth : s'.depth = s.depth := by rw [depth, depth, h.around]
      calc s'.ref = r.shifted s'.depth := Ref.below?_eq_some_iff.1 hs'
        _ = r.shifted s.depth := by rw [hdepth]
        _ = s.ref := (Ref.below?_eq_some_iff.1 hs).symm
  outer r hr := by
    rw [outer?_inside] at hr
    obtain ⟨t, hs, ht⟩ := Option.bind_eq_some_iff.1 hr
    cases Ref.below?_eq_some_iff.1 ht
    obtain ⟨t', hm, hs'⟩ := h.outer _ hs
    obtain ⟨r', hr', rfl⟩ := Reindexing.sink_eq_some hm (Nat.le_add_left ..)
    rw [Ref.lowered_shifted] at hr'
    refine ⟨r', hr', ?_⟩
    rw [outer?_inside, hs', Option.bind_some]
    exact Ref.below?_eq_some_iff.2 rfl

end Site

def sitesOf (rs : List Ref) : List Site := rs.map (⟨[], ·⟩)

theorem filterMap_sitesOf (rs : List Ref) : (sitesOf rs).filterMap Site.outer? = rs := by
  induction rs with
  | nil => rfl
  | cons r rs ih => simpa [sitesOf, Site.outer?, Site.depth] using ih

theorem filterMap_inside (p : Pattern) (ss : List Site) :
    (ss.map (·.inside p)).filterMap Site.outer? = outerRefs p.size (ss.filterMap Site.outer?) := by
  rw [outerRefs_eq_filterMap, List.filterMap_map, List.filterMap_filterMap]
  congr 1
  funext s
  exact s.outer?_inside p

theorem Site.follows_of_image {r r' : Ref} (h : m r = some r') :
    Site.Follows m ⟨[], r⟩ ⟨[], r'⟩ where
  around := rfl
  bound := nofun
  outer := by
    rintro _ ⟨⟩
    exact ⟨r', h, rfl⟩

theorem follows_sitesOf {α : Type} {refs : α → List Ref} {rs : List Ref} {x : Option α} {a : α}
    (h : x.map refs = rs.mapM m) (hx : x = some a) :
    List.Forall₂ (Site.Follows m) (sitesOf rs) (sitesOf (refs a)) := by
  rw [hx, Option.map_some, ← reindexRefs_eq_mapM, eq_comm, reindexRefs_eq_some_iff] at h
  rw [sitesOf, sitesOf, List.forall₂_map_left_iff, List.forall₂_map_right_iff]
  exact h.imp fun _ _ hr => Site.follows_of_image hr

namespace Program

def sites : Program Op → List Site
  | .exec _ args => sitesOf (args.flatMap Operand.refs)
  | .ret t => sitesOf t.refs
  | .compute e => sitesOf e.refs
  | .alloc _ shape => sitesOf shape
  | .letIn p a b => a.sites ++ b.sites.map (·.inside p)
  | .cond r a b => ⟨[], r⟩ :: (a.sites ++ b.sites)

theorem refs_eq_filterMap (t : Program Op) : t.refs = t.sites.filterMap Site.outer? := by
  induction t with
  | exec op args => exact (filterMap_sitesOf _).symm
  | ret t => exact (filterMap_sitesOf _).symm
  | compute e => exact (filterMap_sitesOf _).symm
  | alloc elem shape => exact (filterMap_sitesOf _).symm
  | letIn p a b iha ihb =>
    rw [refs, sites, List.filterMap_append, filterMap_inside, ← iha, ← ihb]
  | cond r a b iha ihb => simp [refs, sites, Site.outer?, Site.depth, iha, ihb]

end Program

theorem Program.Image.sites {t t' : Program Op} (ht : t.Image m t') :
    List.Forall₂ (Site.Follows m) t.sites t'.sites := by
  induction ht with
  | exec ha => exact follows_sitesOf (refs_reindexOperands _) (reindexOperands_eq_some_iff.2 ha)
  | ret ht => exact follows_sitesOf (Tuple.refs_reindex _) (Tuple.reindex_eq_some_iff.2 ht)
  | compute he => exact follows_sitesOf (Expr.refs_reindex _) (Expr.reindex_eq_some_iff.2 he)
  | alloc hs =>
    refine follows_sitesOf (?_ : Option.map id _ = _) (reindexRefs_eq_some_iff.2 hs)
    rw [reindexRefs_eq_mapM, Option.map_id, id]
  | letIn _ _ iha ihb =>
    refine List.rel_append iha ?_
    rw [List.forall₂_map_left_iff, List.forall₂_map_right_iff]
    exact ihb.imp fun _ _ h => h.inside
  | cond hr _ _ iha ihb => exact .cons (Site.follows_of_image hr) (List.rel_append iha ihb)

structure Reindexing.ByRefs {α : Type} (m : Reindexing) (act : α → Option α)
    (refs : α → List Ref) (locals : α → List Local) : Prop where
  absent : ∀ t, act t = none ↔ ∃ r ∈ refs t, m r = none
  refs : ∀ t t', act t = some t' → (refs t').map some = (refs t).map m
  locals : ∀ t t', act t = some t' → locals t' = locals t

theorem Reindexing.byRefs_of_mapM {α : Type} {act : α → Option α} {refs : α → List Ref}
    {locals : α → List Local} (h : ∀ t, (act t).map refs = (refs t).mapM m)
    (hl : ∀ t t', act t = some t' → locals t' = locals t) : m.ByRefs act refs locals where
  absent t := by rw [← mapM_eq_none_iff, ← h, Option.map_eq_none_iff]
  refs t t' ht := by
    have hrefs := h t
    rw [ht, Option.map_some, eq_comm, mapM_eq_some_iff] at hrefs
    exact hrefs.symm
  locals := hl

/-- A term of any sort has no image exactly if one of its references has none. The
references of its image are their images, its binders and scalar variables are those of
the term, and within a program each place follows the map: bound references name the slots
that they named, and no reference that leads outside gets bound. -/
theorem reindex_by_refs (m : Reindexing) :
    m.ByRefs (@Program.reindex Op m) Program.refs Program.locals ∧
    m.ByRefs (Expr.reindex m) Expr.refs Expr.locals ∧
    m.ByRefs (Fn.reindex m) Fn.refs Fn.locals ∧
    m.ByRefs (Operand.reindex m) Operand.refs Operand.locals ∧
    m.ByRefs (Tuple.reindex m) Tuple.refs (fun _ => []) ∧
    (∀ t : Program Op, t.refs = t.sites.filterMap Site.outer?) ∧
    ∀ t t' : Program Op, t.reindex m = some t' →
      List.Forall₂ (Site.Follows m) t.sites t'.sites := by
  refine ⟨?_, ?_, ?_, ?_, ?_, Program.refs_eq_filterMap, fun t t' h =>
    (Program.reindex_eq_some_iff.1 h).sites⟩
  · exact Reindexing.byRefs_of_mapM Program.refs_reindex fun t t' h =>
      (Program.reindex_eq_some_iff.1 h).locals
  · exact Reindexing.byRefs_of_mapM Expr.refs_reindex fun e e' h =>
      (Expr.reindex_eq_some_iff.1 h).locals
  · exact Reindexing.byRefs_of_mapM Fn.refs_reindex fun f f' h =>
      (Fn.reindex_eq_some_iff.1 h).locals
  · exact Reindexing.byRefs_of_mapM Operand.refs_reindex fun o o' h =>
      (Operand.reindex_eq_some_iff.1 h).locals
  · exact Reindexing.byRefs_of_mapM Tuple.refs_reindex fun _ _ _ => rfl

/-- The array is read under a scalar binder and the condition stands under one of the
program, where it is one slot further up. Nothing refers to the slot 1. -/
theorem reindex_by_refs_strengthen :
    let i : Ty := .int 64
    let a : Ty := .array 1 i
    let program (array : Ref) : Program Kernel :=
      .letIn (.slot i) (.compute (.letIn (.slot i) (.const (.int 0)) (.read array (.var ⟨0, i⟩))))
        (.cond ⟨1, .bool⟩ (.ret (.ref ⟨0, i⟩)) (.compute (.param ⟨0, i⟩ .nil)))
    let t := program ⟨2, a⟩
    let t' := program ⟨1, a⟩
    t.refs = [⟨2, a⟩, ⟨0, .bool⟩] ∧ t.reindex (.strengthen 2) = none ∧
      t.reindex (.strengthen 1) = some t' ∧ t'.refs = [⟨1, a⟩, ⟨0, .bool⟩] ∧
      List.Forall₂ (Site.Follows (.strengthen 1)) t.sites t'.sites := by
  intro i a program t t'
  have habsent := (@reindex_by_refs Kernel (.strengthen 2)).1.absent t
  obtain ⟨_, _, _, _, _, _, hsites⟩ := @reindex_by_refs Kernel (.strengthen 1)
  exact ⟨rfl, habsent.2 ⟨⟨2, a⟩, List.mem_cons_self, rfl⟩, rfl, rfl, hsites t t' rfl⟩

end ArrayFusion

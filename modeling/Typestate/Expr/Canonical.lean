import Typestate.Expr

/-!
# Canonical expressions

Facts and states are keyed on expressions, so each expression is first brought to one
form: versions of declared variables become the variable, and an address-of cancels with a
dereference. `simplify` computes that form and `IsCanonical` says what it is.
-/

namespace Typestate.Expr

/-- The canonical form of an expression. -/
def simplify : Expr → Expr
  | ssa v n => if v.storage = .temporary then ssa v n else var v
  | addrOf e =>
    match e.simplify with
    | deref target => target
    | s => addrOf s
  | deref e =>
    match e.simplify with
    | addrOf target => target
    | s => deref s
  | field b f t => field b.simplify f t
  | index b i t => index b.simplify i.simplify t
  | e => e

/-- No version of a declared variable, and no address-of directly on a dereference or the
other way round, at any depth. -/
def IsCanonical : Expr → Prop
  | ssa v _ => v.storage = .temporary
  | addrOf e => e.IsCanonical ∧ ∀ target, e ≠ deref target
  | deref e => e.IsCanonical ∧ ∀ target, e ≠ addrOf target
  | field b _ _ => b.IsCanonical
  | index b i _ => b.IsCanonical ∧ i.IsCanonical
  | _ => True

theorem isCanonical_simplify (e : Expr) : e.simplify.IsCanonical := by
  induction e with
  | var v | lit n | text s => trivial
  | ssa v n =>
    unfold simplify
    split
    · assumption
    · trivial
  | addrOf e ih =>
    unfold simplify
    split
    · rename_i h
      rw [h] at ih
      exact ih.1
    · rename_i h
      exact ⟨ih, h⟩
  | deref e ih =>
    unfold simplify
    split
    · rename_i h
      rw [h] at ih
      exact ih.1
    · rename_i h
      exact ⟨ih, h⟩
  | field b f t ih => exact ih
  | index b i t ihb ihi => exact ⟨ihb, ihi⟩

theorem simplify_of_isCanonical {e : Expr} (h : e.IsCanonical) : e.simplify = e := by
  induction e with
  | var v | lit n | text s => rfl
  | ssa v n => exact if_pos h
  | addrOf e ih =>
    rw [simplify, ih h.1]
    split
    · rename_i target
      exact absurd rfl (h.2 target)
    · rfl
  | deref e ih =>
    rw [simplify, ih h.1]
    split
    · rename_i target
      exact absurd rfl (h.2 target)
    · rfl
  | field b f t ih => rw [simplify, ih h]
  | index b i t ihb ihi => rw [simplify, ihb h.1, ihi h.2]

theorem isCanonical_of_mem_subexprs {e x : Expr} (h : e.IsCanonical) (hx : x ∈ e.subexprs) :
    x.IsCanonical := by
  induction e with
  | var v | lit n | text s | ssa v n =>
    obtain rfl := List.mem_singleton.1 hx
    exact h
  | addrOf e ih | deref e ih =>
    rcases List.mem_cons.1 hx with rfl | hx
    · exact h
    · exact ih h.1 hx
  | field e f t ih =>
    rcases List.mem_cons.1 hx with rfl | hx
    · exact h
    · exact ih h hx
  | index b i t ihb ihi =>
    rcases List.mem_cons.1 hx with rfl | hx
    · exact h
    · rcases List.mem_append.1 hx with hx | hx
      · exact ihb h.1 hx
      · exact ihi h.2 hx

end Typestate.Expr

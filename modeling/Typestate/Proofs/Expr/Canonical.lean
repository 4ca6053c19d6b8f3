import Typestate.Proofs.Expr

/-!
# Alike expressions have one canonical form

Two expressions are alike if nothing tells them apart but versions of declared variables and pairs
of an address-of and a dereference that cancel. The canonical form of an expression is alike to it
and has neither left at any depth, and alike expressions have the same canonical form. So what is
keyed on canonical forms is found from any alike expression, and from no other.
-/
namespace Typestate.Expr

/-- What the canonical form does not tell apart: the least congruence under which a version of a
declared variable is the variable, and an address-of cancels with a dereference. -/
inductive Alike : Expr → Expr → Prop
  | version (v : Variable) (n : Nat) (h : v.storage ≠ .temporary) : Alike (ssa v n) (var v)
  | addrOf_deref (e : Expr) : Alike (addrOf (deref e)) e
  | deref_addrOf (e : Expr) : Alike (deref (addrOf e)) e
  | refl (e : Expr) : Alike e e
  | symm {e x : Expr} : Alike e x → Alike x e
  | trans {e x y : Expr} : Alike e x → Alike x y → Alike e y
  | addrOf {e x : Expr} : Alike e x → Alike (addrOf e) (addrOf x)
  | deref {e x : Expr} : Alike e x → Alike (deref e) (deref x)
  | field {e x : Expr} (f : String) (t : TypeKind) : Alike e x → Alike (field e f t) (field x f t)
  | index {b b' i i' : Expr} (t : TypeKind) :
      Alike b b' → Alike i i' → Alike (index b i t) (index b' i' t)

theorem alike_simplify (e : Expr) : Alike e e.simplify := by
  induction e with
  | var v | lit n | text s => exact .refl _
  | ssa v n =>
    unfold simplify
    split
    · exact .refl _
    · rename_i h
      exact .version v n h
  | addrOf e ih =>
    unfold simplify
    split
    · rename_i target h
      rw [h] at ih
      exact ih.addrOf.trans (.addrOf_deref target)
    · exact ih.addrOf
  | deref e ih =>
    unfold simplify
    split
    · rename_i target h
      rw [h] at ih
      exact ih.deref.trans (.deref_addrOf target)
    · exact ih.deref
  | field b f t ih => exact ih.field f t
  | index b i t ihb ihi => exact ihb.index t ihi

/-- What is under an address-of that cancels is canonical, so no further pair comes together. -/
theorem simplify_addrOf_deref (e : Expr) : (addrOf (deref e)).simplify = e.simplify := by
  by_cases h : ∃ target, e.simplify = addrOf target
  · obtain ⟨target, htarget⟩ := h
    have hderef : (deref e).simplify = target := by rw [simplify, htarget]
    have hcanonical : (addrOf target).IsCanonical := htarget ▸ e.isCanonical_simplify
    rw [simplify_addrOf (by rw [hderef]; exact hcanonical.2), hderef, htarget]
  · have hderef : (deref e).simplify = deref e.simplify :=
      simplify_deref fun target htarget => h ⟨target, htarget⟩
    rw [simplify, hderef]

theorem simplify_deref_addrOf (e : Expr) : (deref (addrOf e)).simplify = e.simplify := by
  by_cases h : ∃ target, e.simplify = deref target
  · obtain ⟨target, htarget⟩ := h
    have haddr : (addrOf e).simplify = target := by rw [simplify, htarget]
    have hcanonical : (deref target).IsCanonical := htarget ▸ e.isCanonical_simplify
    rw [simplify_deref (by rw [haddr]; exact hcanonical.2), haddr, htarget]
  · have haddr : (addrOf e).simplify = addrOf e.simplify :=
      simplify_addrOf fun target htarget => h ⟨target, htarget⟩
    rw [simplify, haddr]

theorem Alike.simplify_eq {e x : Expr} (h : Alike e x) : e.simplify = x.simplify := by
  induction h with
  | version v n h => exact if_neg h
  | addrOf_deref e => exact simplify_addrOf_deref e
  | deref_addrOf e => exact simplify_deref_addrOf e
  | refl e => rfl
  | symm _ ih => exact ih.symm
  | trans _ _ ih ih' => exact ih.trans ih'
  | addrOf _ ih | deref _ ih | field f t _ ih => rw [simplify, simplify, ih]
  | index t _ _ ihb ihi => rw [simplify, simplify, ihb, ihi]

theorem alike_iff {e x : Expr} : Alike e x ↔ e.simplify = x.simplify := by
  constructor
  · exact Alike.simplify_eq
  · intro h
    have hx : Alike e x.simplify := h ▸ e.alike_simplify
    exact hx.trans x.alike_simplify.symm

/-- The canonical form of an expression is its own canonical form. No version of a declared variable
occurs in it, and neither an address-of directly on a dereference nor a dereference directly on an
address-of. The expressions that have it as their canonical form are those alike to the
expression. -/
theorem simplify_is_canonical (e : Expr) :
    e.simplify.simplify = e.simplify ∧
    (∀ v n, ssa v n ∈ e.simplify.subexprs → v.storage = .temporary) ∧
    (∀ x, addrOf (deref x) ∉ e.simplify.subexprs) ∧
    (∀ x, deref (addrOf x) ∉ e.simplify.subexprs) ∧
    ∀ x, x.simplify = e.simplify ↔ Alike e x := by
  have hcanonical : ∀ x ∈ e.simplify.subexprs, x.IsCanonical :=
    fun x hx => isCanonical_of_mem_subexprs e.isCanonical_simplify hx
  refine ⟨simplify_of_isCanonical e.isCanonical_simplify, ?_, ?_, ?_, ?_⟩
  · intro v n hx
    exact hcanonical _ hx
  · intro x hx
    exact (hcanonical _ hx).2 x rfl
  · intro x hx
    exact (hcanonical _ hx).2 x rfl
  · intro x
    rw [alike_iff, eq_comm]

/-- The outer address-of and dereference come together once the inner ones are gone. -/
example (v : Variable) (h : v.storage = .localVar) (n : Nat) (t : TypeKind) :
    (index (addrOf (addrOf (deref (deref (ssa v n))))) (lit 0) t).simplify =
      index (var v) (lit 0) t := by
  simp [simplify, h]

end Typestate.Expr

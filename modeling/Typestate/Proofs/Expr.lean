import Typestate.Expr.Canonical

/-!
# Laws of expressions

What an expression mentions, whose variables it has, and what its canonical form keeps of
both.
-/
namespace Typestate.Expr

theorem mem_subexprs_self (e : Expr) : e ∈ e.subexprs := by
  cases e <;> simp [subexprs]

@[simp] theorem mentions_self (e : Expr) : e.mentions e = true :=
  decide_eq_true e.mem_subexprs_self

theorem mem_subexprs_of_mem_children {e c x : Expr} (hc : c ∈ e.children)
    (hx : x ∈ c.subexprs) : x ∈ e.subexprs := by
  cases e with
  | var v | ssa v n | lit n | text s => cases hc
  | addrOf e | deref e | field e f t =>
    obtain rfl := List.mem_singleton.1 hc
    exact List.mem_cons_of_mem _ hx
  | index b i t =>
    refine List.mem_cons_of_mem _ (List.mem_append.2 ?_)
    rcases List.mem_cons.1 hc with rfl | hc
    · exact .inl hx
    · obtain rfl := List.mem_singleton.1 hc
      exact .inr hx

theorem not_mentions_of_mem_children {e c x : Expr} (hc : c ∈ e.children)
    (h : e.mentions x = false) : c.mentions x = false := by
  rw [mentions, decide_eq_false_iff_not] at h ⊢
  exact fun hx => h (mem_subexprs_of_mem_children hc hx)

theorem mentions_of_mem_children {e c x : Expr} (hc : c ∈ e.children)
    (h : c.mentions x = true) : e.mentions x = true := by
  rw [mentions, decide_eq_true_eq] at h ⊢
  exact mem_subexprs_of_mem_children hc h

theorem mem_subexprs_trans {e x y : Expr} (hx : x ∈ e.subexprs) (hy : y ∈ x.subexprs) :
    y ∈ e.subexprs := by
  induction e with
  | var v | ssa v n | lit n | text s =>
    obtain rfl := List.mem_singleton.1 hx
    exact hy
  | addrOf e ih | deref e ih | field e f t ih =>
    rcases List.mem_cons.1 hx with rfl | hx
    · exact hy
    · exact List.mem_cons_of_mem _ (ih hx)
  | index b i t ihb ihi =>
    rcases List.mem_cons.1 hx with rfl | hx
    · exact hy
    · refine List.mem_cons_of_mem _ (List.mem_append.2 ?_)
      rcases List.mem_append.1 hx with hx | hx
      · exact .inl (ihb hx)
      · exact .inr (ihi hx)

theorem mem_vars_of_mem_subexprs {e x : Expr} {v : Variable} (hx : x ∈ e.subexprs)
    (hv : v ∈ x.vars) : v ∈ e.vars := by
  obtain ⟨y, hy, hyv⟩ := List.mem_filterMap.1 hv
  exact List.mem_filterMap.2 ⟨y, mem_subexprs_trans hx hy, hyv⟩

theorem mem_vars_of_mem_children {e c : Expr} {v : Variable} (hc : c ∈ e.children)
    (hv : v ∈ c.vars) : v ∈ e.vars :=
  mem_vars_of_mem_subexprs (mem_subexprs_of_mem_children hc c.mem_subexprs_self) hv

@[simp] theorem vars_addrOf (e : Expr) : (addrOf e).vars = e.vars := rfl

@[simp] theorem vars_deref (e : Expr) : (deref e).vars = e.vars := rfl

@[simp] theorem vars_field (e : Expr) (f : String) (t : TypeKind) :
    (field e f t).vars = e.vars := rfl

@[simp] theorem vars_index (b i : Expr) (t : TypeKind) :
    (index b i t).vars = b.vars ++ i.vars :=
  List.filterMap_append

@[simp] theorem vars_simplify (e : Expr) : e.simplify.vars = e.vars := by
  induction e with
  | var v | lit n | text s => rfl
  | ssa v n =>
    unfold simplify
    split <;> rfl
  | addrOf e ih | deref e ih =>
    unfold simplify
    split
    · rename_i h
      rw [h] at ih
      exact ih
    · exact ih
  | field b f t ih => exact ih
  | index b i t ihb ihi => rw [simplify, vars_index, ihb, ihi, vars_index]

theorem simplify_deref {e : Expr} (h : ∀ t, e.simplify ≠ addrOf t) :
    (deref e).simplify = deref e.simplify := by
  rw [simplify]
  split
  · rename_i t ht
    exact absurd ht (h t)
  · rfl

theorem simplify_addrOf {e : Expr} (h : ∀ t, e.simplify ≠ deref t) :
    (addrOf e).simplify = addrOf e.simplify := by
  rw [simplify]
  split
  · rename_i t ht
    exact absurd ht (h t)
  · rfl

theorem isScopedTo_eq_false {e : Expr} {f : FunctionId} :
    e.isScopedTo f = false ↔ ∀ v ∈ e.vars, v.owner ≠ some f := by
  simp [isScopedTo]

@[simp] theorem isScopedTo_simplify (e : Expr) (f : FunctionId) :
    e.simplify.isScopedTo f = e.isScopedTo f := by
  simp [isScopedTo]

theorem isScopedTo_var {v : Variable} {f : FunctionId} :
    (var v).isScopedTo f = true ↔ v.owner = some f := by
  simp [isScopedTo, vars, subexprs, asVariable]

theorem not_isScopedTo_of_mem_children {e c : Expr} {f : FunctionId} (hc : c ∈ e.children)
    (h : e.isScopedTo f = false) : c.isScopedTo f = false := by
  rw [isScopedTo_eq_false] at h ⊢
  exact fun v hv => h v (mem_vars_of_mem_children hc hv)

theorem isScopedTo_of_mem_children {e c : Expr} {f : FunctionId} (hc : c ∈ e.children)
    (h : c.isScopedTo f = true) : e.isScopedTo f = true := by
  cases he : e.isScopedTo f with
  | true => rfl
  | false => exact absurd h (by simp [not_isScopedTo_of_mem_children hc he])

theorem IsCanonical.of_mem_children {e c : Expr} (h : e.IsCanonical) (hc : c ∈ e.children) :
    c.IsCanonical :=
  isCanonical_of_mem_subexprs h (mem_subexprs_of_mem_children hc c.mem_subexprs_self)

/-- What holds of an expression if it holds of its parts holds of every expression. -/
theorem induction_on_children {P : Expr → Prop} (h : ∀ e : Expr, (∀ c ∈ e.children, P c) → P e)
    (e : Expr) : P e := by
  induction e with
  | var v | ssa v n | lit n | text s => exact h _ fun c hc => absurd hc List.not_mem_nil
  | addrOf e ih | deref e ih | field e f t ih =>
    apply h
    intro c hc
    obtain rfl := List.mem_singleton.1 hc
    exact ih
  | index b i t ihb ihi =>
    apply h
    intro c hc
    rcases List.mem_cons.1 hc with rfl | hc
    · exact ihb
    · obtain rfl := List.mem_singleton.1 hc
      exact ihi

theorem mem_subexprs_iff {e x : Expr} :
    x ∈ e.subexprs ↔ x = e ∨ ∃ c ∈ e.children, x ∈ c.subexprs := by
  cases e <;> simp [subexprs, children]

def mapChildren (f : Expr → Expr) : Expr → Expr
  | addrOf e => addrOf (f e)
  | deref e => deref (f e)
  | field e n t => field (f e) n t
  | index b i t => index (f b) (f i) t
  | e => e

@[simp] theorem children_mapChildren (f : Expr → Expr) (e : Expr) :
    (e.mapChildren f).children = e.children.map f := by
  cases e <;> rfl

theorem mapChildren_mapChildren (f g : Expr → Expr) (e : Expr) :
    (e.mapChildren f).mapChildren g = e.mapChildren fun c => g (f c) := by
  cases e <;> rfl

theorem mapChildren_eq_self {f : Expr → Expr} {e : Expr} (h : ∀ c ∈ e.children, f c = c) :
    e.mapChildren f = e := by
  cases e <;> simp_all [mapChildren, children]

theorem mapChildren_eq_var {f : Expr → Expr} {e : Expr} {v : Variable}
    (h : e.mapChildren f = var v) : e = var v := by
  cases e <;> simp_all [mapChildren]

theorem substitute_eq (rename : Expr → Option Expr) (e : Expr) :
    e.substitute rename = (rename e).getD (e.mapChildren (substitute rename)) := by
  cases e <;> rfl

end Typestate.Expr

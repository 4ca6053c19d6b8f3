import Typestate.Expr

/-!
# The order of expressions

Expressions compare by their form and then part by part. The order decides how classes,
facts and findings are listed, so its laws are those of a linear order.
-/

namespace Typestate

namespace Storage

def rank : Storage → Nat
  | localVar => 0 | param => 1 | global => 2 | temporary => 3

theorem rank_injective (a b : Storage) (h : a.rank = b.rank) : a = b := by
  cases a <;> cases b <;> first | rfl | cases h

instance : Ord Storage := ⟨compareOn rank⟩

instance : Std.TransOrd Storage := inferInstanceAs (Std.TransCmp (compareOn rank))

instance : Std.LawfulEqOrd Storage := lawfulEqCmp_compareOn rank_injective

end Storage

namespace TypeKind

def rank : TypeKind → Nat
  | pointer => 0 | integer => 1 | other => 2

theorem rank_injective (a b : TypeKind) (h : a.rank = b.rank) : a = b := by
  cases a <;> cases b <;> first | rfl | cases h

instance : Ord TypeKind := ⟨compareOn rank⟩

instance : Std.TransOrd TypeKind := inferInstanceAs (Std.TransCmp (compareOn rank))

instance : Std.LawfulEqOrd TypeKind := lawfulEqCmp_compareOn rank_injective

end TypeKind

namespace Variable

def order : Variable → Variable → Ordering :=
  compareLex (compareOn name)
    (compareLex (compareOn owner) (compareLex (compareOn storage) (compareOn ty)))

instance : Ord Variable := ⟨order⟩

instance : Std.TransOrd Variable :=
  inferInstanceAs (Std.TransCmp (compareLex (compareOn name)
    (compareLex (compareOn owner) (compareLex (compareOn storage) (compareOn ty)))))

instance : Std.LawfulEqOrd Variable := lawfulEqCmp_of_eq_iff order <| by
  rintro ⟨n, o, s, t⟩ ⟨n', o', s', t'⟩
  simp [order, compareLex, compareOn]

end Variable

namespace Expr

/-- Expressions compare by form, and those of one form part by part. -/
def order : Expr → Expr → Ordering
  | var v, var w => compare v w
  | ssa v m, ssa w n => (compare v w).then (compare m n)
  | lit m, lit n => compare m n
  | text s, text t => compare s t
  | addrOf a, addrOf b => a.order b
  | deref a, deref b => a.order b
  | field a f s, field b g t => (a.order b).then ((compare f g).then (compare s t))
  | index a i s, index b j t => (a.order b).then ((i.order j).then (compare s t))
  | a, b => compare a.rank b.rank

theorem eq_of_order (a b : Expr) (h : a.order b = .eq) : a = b := by
  induction a generalizing b with
  | addrOf e ih | deref e ih | field e _ _ ih =>
    cases b <;> simp_all [order, rank]
    all_goals exact ih _ (by first | exact h | exact h.1)
  | index e i t ih₁ ih₂ =>
    cases b <;> simp_all [order, rank]
    exact ⟨ih₁ _ h.1, ih₂ _ h.2.1⟩
  | _ => cases b <;> simp_all [order, rank]

theorem order_swap (a b : Expr) : a.order b = (b.order a).swap := by
  induction a generalizing b with
  | addrOf e ih | deref e ih => cases b <;> simp [order, rank, ih] <;> rfl
  | field e f t ih =>
    cases b with
    | field e' f' t' =>
      simp only [order, Ordering.swap_then, ← ih]
      rw [← Std.OrientedOrd.eq_swap, ← Std.OrientedOrd.eq_swap]
    | _ => rfl
  | index e i t ih₁ ih₂ =>
    cases b with
    | index e' i' t' =>
      simp only [order, Ordering.swap_then, ← ih₁, ← ih₂]
      rw [← Std.OrientedOrd.eq_swap]
    | _ => rfl
  | ssa v n =>
    cases b with
    | ssa w m =>
      simp only [order, Ordering.swap_then]
      rw [← Std.OrientedOrd.eq_swap, ← Std.OrientedOrd.eq_swap]
    | _ => rfl
  | var v => cases b <;> first | rfl | exact Std.OrientedOrd.eq_swap
  | lit n => cases b <;> first | rfl | exact Std.OrientedOrd.eq_swap
  | text s => cases b <;> first | rfl | exact Std.OrientedOrd.eq_swap

theorem order_self (a : Expr) : a.order a = .eq := by
  induction a <;> simp_all [order, Std.compare_self]

theorem order_eq_iff (a b : Expr) : a.order b = .eq ↔ a = b :=
  ⟨eq_of_order a b, fun h => h ▸ order_self a⟩

/-- Only an expression of the same form, or of a later one, follows an expression. -/
theorem rank_le_of_order_lt {a b : Expr} (h : a.order b = .lt) : a.rank ≤ b.rank := by
  cases a <;> cases b <;> first | exact Nat.le_of_ble_eq_true rfl | cases h

theorem order_eq_lt_of_rank {a b : Expr} (h : a.rank < b.rank) : a.order b = .lt := by
  cases a <;> cases b <;> first | rfl | exact absurd h (by simp [rank])

/-- In an ascending chain the last form is later than the first, or all forms agree. -/
theorem rank_of_order_lt_lt {a b c : Expr} (hab : a.order b = .lt) (hbc : b.order c = .lt) :
    a.rank < c.rank ∨ a.rank = b.rank ∧ b.rank = c.rank := by
  have h₁ := rank_le_of_order_lt hab
  have h₂ := rank_le_of_order_lt hbc
  omega

theorem order_trans (a b c : Expr) (hab : a.order b = .lt) (hbc : b.order c = .lt) :
    a.order c = .lt := by
  have lt_trans : ∀ {α : Type} [Ord α] [Std.TransOrd α] {x y z : α},
      compare x y = .lt → compare y z = .lt → compare x z = .lt := Std.TransCmp.lt_trans
  induction a generalizing b c with
  | var v | lit n | text s =>
    rcases rank_of_order_lt_lt hab hbc with h | ⟨h, h'⟩
    · exact order_eq_lt_of_rank h
    cases b <;> try cases h
    cases c <;> try cases h'
    exact lt_trans hab hbc
  | addrOf e ih | deref e ih =>
    rcases rank_of_order_lt_lt hab hbc with h | ⟨h, h'⟩
    · exact order_eq_lt_of_rank h
    cases b <;> try cases h
    cases c <;> try cases h'
    exact ih _ _ hab hbc
  | ssa v n =>
    rcases rank_of_order_lt_lt hab hbc with h | ⟨h, h'⟩
    · exact order_eq_lt_of_rank h
    cases b <;> try cases h
    cases c <;> try cases h'
    simp only [order, then_eq_lt_iff, Std.compare_eq_iff_eq] at hab hbc ⊢
    rcases hab with h | ⟨rfl, h⟩ <;> rcases hbc with h' | ⟨rfl, h'⟩
    · exact .inl (lt_trans h h')
    · exact .inl h
    · exact .inl h'
    · exact .inr ⟨rfl, lt_trans h h'⟩
  | field e f t ih =>
    rcases rank_of_order_lt_lt hab hbc with h | ⟨h, h'⟩
    · exact order_eq_lt_of_rank h
    cases b <;> try cases h
    cases c <;> try cases h'
    simp only [order, then_eq_lt_iff, Std.compare_eq_iff_eq, order_eq_iff] at hab hbc ⊢
    rcases hab with h | ⟨rfl, h⟩ <;> rcases hbc with h' | ⟨rfl, h'⟩
    · exact .inl (ih _ _ h h')
    · exact .inl h
    · exact .inl h'
    · refine .inr ⟨rfl, ?_⟩
      rcases h with h | ⟨rfl, h⟩ <;> rcases h' with h' | ⟨rfl, h'⟩
      · exact .inl (lt_trans h h')
      · exact .inl h
      · exact .inl h'
      · exact .inr ⟨rfl, lt_trans h h'⟩
  | index e i t ih₁ ih₂ =>
    rcases rank_of_order_lt_lt hab hbc with h | ⟨h, h'⟩
    · exact order_eq_lt_of_rank h
    cases b <;> try cases h
    cases c <;> try cases h'
    simp only [order, then_eq_lt_iff, order_eq_iff] at hab hbc ⊢
    rcases hab with h | ⟨rfl, h⟩ <;> rcases hbc with h' | ⟨rfl, h'⟩
    · exact .inl (ih₁ _ _ h h')
    · exact .inl h
    · exact .inl h'
    · refine .inr ⟨rfl, ?_⟩
      rcases h with h | ⟨rfl, h⟩ <;> rcases h' with h' | ⟨rfl, h'⟩
      · exact .inl (ih₂ _ _ h h')
      · exact .inl h
      · exact .inl h'
      · exact .inr ⟨rfl, lt_trans h h'⟩

instance : Ord Expr := ⟨order⟩

instance : Std.TransOrd Expr := transCmp_of_lt_trans order_swap eq_of_order order_trans

instance : Std.LawfulEqOrd Expr := lawfulEqCmp_of_eq_iff order order_eq_iff

end Expr

end Typestate

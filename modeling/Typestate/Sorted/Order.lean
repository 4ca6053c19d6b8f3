/-!
# Lawful orders

Every collection of the library is kept in ascending order, so each element type
carries a lawful `compare`: a linear order whose `eq` is equality. Records compare
field by field, enumerations by rank; this file holds the shared steps.
-/

namespace Typestate

/-- A comparison that is antisymmetric under `swap`, decides equality and has a transitive
`lt` is a lawful linear order. -/
theorem transCmp_of_lt_trans {α : Type} {cmp : α → α → Ordering}
    (swap : ∀ a b, cmp a b = (cmp b a).swap)
    (eq : ∀ a b, cmp a b = .eq → a = b)
    (trans : ∀ a b c, cmp a b = .lt → cmp b c = .lt → cmp a c = .lt) :
    Std.TransCmp cmp where
  eq_swap := swap _ _
  isLE_trans := by
    intro a b c hab hbc
    cases h₁ : cmp a b with
    | gt => simp [h₁] at hab
    | eq => rwa [eq a b h₁]
    | lt =>
      cases h₂ : cmp b c with
      | gt => simp [h₂] at hbc
      | eq => rw [← eq b c h₂, h₁]; rfl
      | lt => rw [trans a b c h₁ h₂]; rfl

theorem lawfulEqCmp_of_eq_iff {α : Type} (cmp : α → α → Ordering)
    (h : ∀ a b, cmp a b = .eq ↔ a = b) : Std.LawfulEqCmp cmp where
  compare_self := (h _ _).2 rfl
  eq_of_compare := (h _ _).1

theorem lawfulEqCmp_compareOn {α β : Type} [Ord β] [Std.LawfulEqOrd β] {key : α → β}
    (inj : ∀ a b, key a = key b → a = b) : Std.LawfulEqCmp (compareOn key) where
  compare_self := by intro a; simp [compareOn]
  eq_of_compare := by
    intro a b h
    exact inj a b (Std.LawfulEqOrd.eq_of_compare h)

/-- A lexicographic comparison answers `lt` at the first difference. -/
theorem then_eq_lt_iff {o p : Ordering} : o.then p = .lt ↔ o = .lt ∨ o = .eq ∧ p = .lt := by
  cases o <;> simp

/-- A list in which each element strictly precedes the later ones is determined by its
members. -/
theorem eq_of_mem_iff_of_pairwise {α : Type} {R : α → α → Prop}
    (asymm : ∀ a b, R a b → ¬ R b a) {l m : List α} (hl : l.Pairwise R) (hm : m.Pairwise R)
    (h : ∀ x, x ∈ l ↔ x ∈ m) : l = m := by
  have irrefl : ∀ a, ¬ R a a := fun a ha => asymm a a ha ha
  induction l generalizing m with
  | nil =>
    cases m with
    | nil => rfl
    | cons b m => exact absurd ((h b).2 List.mem_cons_self) List.not_mem_nil
  | cons a l ih =>
    cases m with
    | nil => exact absurd ((h a).1 List.mem_cons_self) List.not_mem_nil
    | cons b m =>
      obtain ⟨ha, hl'⟩ := List.pairwise_cons.1 hl
      obtain ⟨hb, hm'⟩ := List.pairwise_cons.1 hm
      have hab : a = b := by
        rcases List.mem_cons.1 ((h a).1 List.mem_cons_self) with e | e
        · exact e
        · rcases List.mem_cons.1 ((h b).2 List.mem_cons_self) with e' | e'
          · exact e'.symm
          · exact absurd (ha b e') (asymm _ _ (hb a e))
      subst hab
      congr 1
      refine ih hl' hm' fun x => ⟨fun hx => ?_, fun hx => ?_⟩
      · rcases List.mem_cons.1 ((h x).1 (List.mem_cons_of_mem _ hx)) with e | e
        · exact absurd (e ▸ ha x hx) (irrefl a)
        · exact e
      · rcases List.mem_cons.1 ((h x).2 (List.mem_cons_of_mem _ hx)) with e | e
        · exact absurd (e ▸ hb x hx) (irrefl a)
        · exact e

theorem not_lt_of_lt {α : Type} [Ord α] [Std.TransOrd α] (a b : α) (h : compare a b = .lt) :
    ¬ compare b a = .lt := by
  rw [Std.OrientedOrd.eq_swap, h]
  decide

/-- Pairs compare by the first part, then by the second. -/
def comparePair {α β : Type} [Ord α] [Ord β] : α × β → α × β → Ordering :=
  compareLex (compareOn Prod.fst) (compareOn Prod.snd)

instance {α β : Type} [Ord α] [Ord β] [Std.TransOrd α] [Std.TransOrd β] :
    Std.TransCmp (comparePair (α := α) (β := β)) :=
  inferInstanceAs (Std.TransCmp (compareLex (compareOn Prod.fst) (compareOn Prod.snd)))

instance {α β : Type} [Ord α] [Ord β] [Std.LawfulEqOrd α] [Std.LawfulEqOrd β] :
    Std.LawfulEqCmp (comparePair (α := α) (β := β)) where
  compare_self := by intro a; simp [comparePair, compareLex, compareOn]
  eq_of_compare := by
    rintro ⟨a, b⟩ ⟨c, d⟩ h
    simp only [comparePair, compareLex, compareOn, Ordering.then_eq_eq] at h
    rw [Std.LawfulEqOrd.eq_of_compare h.1,
      Std.LawfulEqOrd.eq_of_compare h.2]

end Typestate

import Mathlib.Tactic.ByContra
import Typestate.Proofs.Facts.Closure
import Typestate.Proofs.Facts.Monotone

/-!
# When a contradiction is found

A set of facts is found impossible exactly if it contradicts itself in one of three ways, told
by chains of equalities: a chain connects two integer literals, chains connect the sides of a
comparison with literals for which it does not hold, or a chain connects the sides of a strict
comparison. No valuation satisfies such a set, and more facts contradict each other all the
more, so what is known on either side of a join is possible after it.
-/
namespace Typestate.Facts

open Relation (EqvGen)

/-- A contradiction among facts that is looked for. -/
inductive Contradicts (s : Facts) : Prop
  | literals {m n : Int} : EqvGen s.Equates (.lit m) (.lit n) → m ≠ n → s.Contradicts
  | values {f : Fact} {m n : Int} : f ∈ s → EqvGen s.Equates f.left (.lit m) →
      EqvGen s.Equates f.right (.lit n) → ¬ f.op.Holds m n → s.Contradicts
  | sides {f : Fact} : f ∈ s → f.op = .ne ∨ f.op = .lt ∨ f.op = .gt →
      EqvGen s.Equates f.left f.right → s.Contradicts

variable {s : Facts} {e : Expr} {m n : Int}

theorem eqvGen_of_constantOf (h : s.classes.constantOf e = some n) :
    EqvGen s.Equates e (.lit n) := by
  cases hlit : e.literal? with
  | some m =>
    obtain rfl := Expr.literal?_eq_some.1 hlit
    obtain rfl : m = n := Option.some.inj h
    exact .refl _
  | none =>
    obtain ⟨c, hc, he, hn⟩ := Partition.mem_of_constantOf hlit h
    exact (s.isClosure_classes.chained c hc c hc _ he _ hn).1 rfl

/-- If no class holds two literals, what a chain connects with a literal has that value. -/
theorem constantOf_of_eqvGen
    (hone : ∀ c ∈ s.classes.classes, (Partition.literals c).length ≤ 1)
    (h : EqvGen s.Equates e (.lit n)) : s.classes.constantOf e = some n := by
  rcases s.isClosure_classes.eqvGen_iff.1 h with rfl | ⟨c, hc, he, hn⟩
  · rfl
  · exact s.isClosure_classes.disjoint.constantOf_eq hc (hone c hc) he hn

theorem eq_of_eqvGen_lit (hone : ∀ c ∈ s.classes.classes, (Partition.literals c).length ≤ 1)
    (h : EqvGen s.Equates (.lit m) (.lit n)) : m = n :=
  Option.some.inj (constantOf_of_eqvGen hone h)

theorem isPossible_of_not_contradicts (h : ¬ s.Contradicts) : s.isPossible = true := by
  refine isPossible_iff.2 ⟨fun c hc => ?_, fun f hf hop => ?_⟩
  · refine Partition.length_literals_le_one_iff.2 fun m n hm hn => ?_
    by_contra hne
    exact h (.literals ((s.isClosure_classes.chained c hc c hc _ hm _ hn).1 rfl) hne)
  · unfold agrees
    split
    · rename_i m n hm hn
      refine decide_eq_true ?_
      by_contra hfails
      exact h (.values hf (eqvGen_of_constantOf hm) (eqvGen_of_constantOf hn) hfails)
    · rw [Bool.not_eq_true', Bool.and_eq_false_iff]
      by_contra hboth
      simp only [not_or, Bool.not_eq_false, Bool.or_eq_true, decide_eq_true_eq, or_assoc]
        at hboth
      exact h (.sides hf hboth.1 (s.isClosure_classes.sameClass_iff.1 hboth.2))

theorem Contradicts.isPossible_eq_false (h : s.Contradicts) : s.isPossible = false := by
  by_contra hpossible
  obtain ⟨hone, hagrees⟩ := isPossible_iff.1 (Bool.not_eq_false _ ▸ hpossible)
  cases h with
  | literals hchain hne => exact hne (eq_of_eqvGen_lit hone hchain)
  | @values f m n hf hleft hright hfails =>
    by_cases hop : f.op = .eq
    · have hsides : EqvGen s.Equates f.left f.right := .rel _ _ ⟨f, hf, hop, rfl, rfl⟩
      rw [hop] at hfails
      exact hfails (eq_of_eqvGen_lit hone ((hleft.symm.trans _ _ _ hsides).trans _ _ _ hright))
    · have hf := hagrees f hf hop
      rw [agrees, constantOf_of_eqvGen hone hleft, constantOf_of_eqvGen hone hright] at hf
      exact hfails (of_decide_eq_true hf)
  | @sides f hf hop hchain =>
    have hne : f.op ≠ .eq := by rcases hop with hop | hop | hop <;> simp [hop]
    have hsame := s.isClosure_classes.sameClass_iff.2 hchain
    have hf := hagrees f hf hne
    unfold agrees at hf
    split at hf
    · rename_i m n hm hn
      have hmn := s.isClosure_classes.disjoint.constantOf_eq_of_sameClass hone hsame hm
      obtain rfl := Option.some.inj (hmn.symm.trans hn)
      have hholds := of_decide_eq_true hf
      rcases hop with hop | hop | hop <;> simp [hop, Comparison.Holds] at hholds
    · rcases hop with hop | hop | hop <;> simp [hop, hsame] at hf

theorem isPossible_eq_false_iff : s.isPossible = false ↔ s.Contradicts := by
  refine ⟨fun h => ?_, Contradicts.isPossible_eq_false⟩
  by_contra hnot
  rw [isPossible_of_not_contradicts hnot] at h
  cases h

/-- A set is found impossible exactly if it contradicts itself. What a valuation satisfies is
possible, what is impossible stays so with more facts, and what is possible does in a join. -/
theorem isPossible_sound_antitone (s : Facts) :
    (s.isPossible = false ↔ s.Contradicts) ∧
      (∀ v : Valuation, v.Satisfies s → s.isPossible = true) ∧
      (∀ t : Facts, s ⊆ t → s.isPossible = false → t.isPossible = false) ∧
      (∀ l : List Fact, s.isPossible = false → (s.addAll l).isPossible = false) ∧
      ∀ t : Facts, s.isPossible = true →
        (s.meet t).isPossible = true ∧ (t.meet s).isPossible = true := by
  have hmore : ∀ t : Facts, s ⊆ t → s.isPossible = false → t.isPossible = false := by
    intro t hsub hs
    by_contra ht
    rw [isPossible_of_subset hsub (Bool.not_eq_false _ ▸ ht)] at hs
    cases hs
  refine ⟨isPossible_eq_false_iff, fun v => isPossible_of_satisfies, hmore, fun l => ?_,
    fun t hs => ⟨isPossible_meet hs, ?_⟩⟩
  · exact hmore _ fun f hf => mem_addAll.2 (.inl hf)
  · exact isPossible_of_subset (fun f hf => (mem_meet.1 hf).2) hs

/-- The facts that two locals are equal and that a comparison holds of them. -/
def equalAnd (f : Fact) : Facts := .ofList [.of (chained "x") .eq (chained "y"), f]

/-- Equal locals are not in order, whatever else is known of them; they may be less than ten,
and so they may be after a join. -/
theorem isPossible_sound_antitone_equal :
    (equalAnd (.of (chained "x") .lt (chained "y"))).isPossible = false ∧
      ((equalAnd (.of (chained "x") .lt (chained "y"))).addAll
        [.of (chained "x") .eq (.lit 3)]).isPossible = false ∧
      (Valuation.table [(chained "x", 3), (chained "y", 3)]).Satisfies
        (equalAnd (.of (chained "x") .lt (.lit 10))) ∧
      (equalAnd (.of (chained "x") .lt (.lit 10))).isPossible = true ∧
      ((equalAnd (.of (chained "x") .lt (.lit 10))).meet
        (equalAnd (.of (chained "x") .lt (chained "y")))).isPossible = true := by
  obtain ⟨hiff, -, -, hmore, -⟩ :=
    isPossible_sound_antitone (equalAnd (.of (chained "x") .lt (chained "y")))
  obtain ⟨-, hsound, -, -, hjoin⟩ :=
    isPossible_sound_antitone (equalAnd (.of (chained "x") .lt (.lit 10)))
  have hfalse : (equalAnd (.of (chained "x") .lt (chained "y"))).isPossible = false :=
    hiff.2 (.sides (f := .of (chained "x") .lt (chained "y")) (by decide) (.inr (.inl rfl))
      (.rel _ _ ⟨.of (chained "x") .eq (chained "y"), by decide, rfl, rfl, rfl⟩))
  have hsatisfies : (Valuation.table [(chained "x", 3), (chained "y", 3)]).Satisfies
      (equalAnd (.of (chained "x") .lt (.lit 10))) := by
    unfold Valuation.Satisfies
    decide
  have htrue := hsound _ hsatisfies
  exact ⟨hfalse, hmore _ hfalse, hsatisfies, htrue, (hjoin _ htrue).1⟩

end Typestate.Facts

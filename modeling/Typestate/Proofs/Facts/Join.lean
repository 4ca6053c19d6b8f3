import Typestate.Proofs.Facts.Closure

/-!
# Comparisons that survive a join

A comparison can be written in two directions. The normal form of facts takes one of them where
one side is an integer literal and the other is not, and leaves the others as they are written.
So of a comparison that is known on both sides of a join what survives is what both sides write
in one direction, and just the comparisons with one normal form survive whatever their
directions are.
-/
namespace Typestate

open Relation (EqvGen)

theorem Comparison.flip_flip (op : Comparison) : op.flip.flip = op := by
  cases op <;> rfl

namespace Fact

theorem ext_iff {f g : Fact} : f = g ↔ f.left = g.left ∧ f.op = g.op ∧ f.right = g.right :=
  ⟨fun h => h ▸ ⟨rfl, rfl, rfl⟩, fun h => ext h.1 h.2.1 h.2.2⟩

variable {a b : Expr} {op : Comparison}

/-- The normal form of a comparison of a literal with another expression turns it around. -/
theorem of_turned (op : Comparison) (ha : a.simplify.isLiteral = true)
    (hb : b.simplify.isLiteral = false) :
    (of a op b).left = b.simplify ∧ (of a op b).op = op.flip ∧ (of a op b).right = a.simplify := by
  rw [of, dif_pos ⟨ha, hb⟩]
  exact ⟨rfl, rfl, rfl⟩

theorem of_straight (op : Comparison)
    (h : ¬ (a.simplify.isLiteral = true ∧ b.simplify.isLiteral = false)) :
    (of a op b).left = a.simplify ∧ (of a op b).op = op ∧ (of a op b).right = b.simplify := by
  rw [of, dif_neg h]
  exact ⟨rfl, rfl, rfl⟩

/-- A comparison of a literal with another expression and the one turned around are one. -/
theorem of_flip_of_literal (op : Comparison) (ha : a.simplify.isLiteral = true)
    (hb : b.simplify.isLiteral = false) : of b op.flip a = of a op b := by
  obtain ⟨hl, ho, hr⟩ := of_turned op ha hb
  obtain ⟨hl', ho', hr'⟩ := of_straight (a := b) (b := a) op.flip (by simp [hb])
  exact ext (hl'.trans hl.symm) (ho'.trans ho.symm) (hr'.trans hr.symm)

/-- Both directions of a comparison have one normal form if one side alone is a literal, or if to
turn the comparison around changes nothing. -/
theorem of_flip_eq_iff :
    of b op.flip a = of a op b ↔ a.simplify.isLiteral ≠ b.simplify.isLiteral ∨
      a.simplify = b.simplify ∧ op.flip = op := by
  by_cases hab : a.simplify.isLiteral = b.simplify.isLiteral
  · obtain ⟨hl, ho, hr⟩ := of_straight (a := a) (b := b) op (by simp [hab])
    obtain ⟨hl', ho', hr'⟩ := of_straight (a := b) (b := a) op.flip (by simp [hab])
    rw [ext_iff, hl, ho, hr, hl', ho', hr']
    constructor
    · rintro ⟨-, hop, heq⟩
      exact .inr ⟨heq, hop⟩
    · rintro (hne | ⟨heq, hop⟩)
      · exact absurd hab hne
      · exact ⟨heq.symm, hop, heq⟩
  · refine iff_of_true ?_ (.inl hab)
    cases ha : a.simplify.isLiteral
    · have hb : b.simplify.isLiteral = true := by simpa [ha] using hab
      have hback := of_flip_of_literal op.flip hb ha
      rw [op.flip_flip] at hback
      exact hback.symm
    · exact of_flip_of_literal op ha (by simpa [ha] using hab)

/-- A comparison says nothing just if it is an equality, or a bound, of an expression and itself. -/
theorem isTautology_of_iff : (of a op b).isTautology = true ↔
    a.simplify = b.simplify ∧ (op = .eq ∨ op = .le ∨ op = .ge) := by
  by_cases h : a.simplify.isLiteral = true ∧ b.simplify.isLiteral = false
  · obtain ⟨hl, -, hr⟩ := of_turned op h.1 h.2
    have hne : a.simplify ≠ b.simplify := fun heq => by simp [heq, h.2] at h
    simp [isTautology, hl, hr, hne, hne.symm]
  · obtain ⟨hl, ho, hr⟩ := of_straight op h
    simp [isTautology, hl, ho, hr, or_assoc]

theorem isTautology_of_flip : (of b op.flip a).isTautology = (of a op b).isTautology := by
  rw [Bool.eq_iff_iff, isTautology_of_iff, isTautology_of_iff, eq_comm]
  cases op <;> simp [Comparison.flip]

end Fact

namespace Partition

/-- The members of the class that is given for an expression, which may be in none. -/
theorem IsClosure.mem_classOf {p : Partition} {R : Expr → Expr → Prop} {x y : Expr}
    (h : p.IsClosure R) : y ∈ (p.classOf x).getD (.singleton x) ↔ EqvGen R x y := by
  cases hx : p.classOf x with
  | some c =>
    obtain ⟨hc, hxc⟩ := classOf_eq_some hx
    exact h.mem_iff hc hxc
  | none =>
    rw [h.eqvGen_iff]
    constructor
    · intro hy
      exact .inl (SortedSet.mem_singleton.1 hy).symm
    · rintro (rfl | ⟨c, hc, hxc, -⟩)
      · exact SortedSet.mem_singleton.2 rfl
      · rw [h.disjoint.classOf_eq hc hxc] at hx
        cases hx

end Partition

namespace Facts

variable {s t : Facts} {a b : Expr} {op : Comparison}

/-- Whether a set of facts has a comparison, written in either direction. -/
def Relates (s : Facts) (a : Expr) (op : Comparison) (b : Expr) : Prop :=
  s.has a op b = true ∨ s.has b op.flip a = true

instance : Decidable (s.Relates a op b) := inferInstanceAs (Decidable (_ ∨ _))

theorem has_iff : s.has a op b = true ↔ Fact.of a op b ∈ s := decide_eq_true_iff

theorem has_meet : (s.meet t).has a op b = true ↔ s.has a op b = true ∧ t.has a op b = true := by
  simp only [has_iff, mem_meet]

theorem relates_meet : (s.meet t).Relates a op b ↔
    s.has a op b = true ∧ t.has a op b = true ∨
      s.has b op.flip a = true ∧ t.has b op.flip a = true := by
  simp only [Relates, has_meet]

theorem not_relates_of_isTautology (h : (Fact.of a op b).isTautology = true) :
    ¬ s.Relates a op b := by
  rintro (hs | hs)
  · rw [s.informative _ (has_iff.1 hs)] at h
    cases h
  · rw [← Fact.isTautology_of_flip, s.informative _ (has_iff.1 hs)] at h
    cases h

/-- If whatever two sets have a comparison in some direction their join does, the comparison has
one normal form or says nothing. -/
theorem forall_relates_meet_iff :
    (∀ s t : Facts, s.Relates a op b → t.Relates a op b → (s.meet t).Relates a op b) ↔
      Fact.of b op.flip a = Fact.of a op b ∨ (Fact.of a op b).isTautology = true := by
  constructor
  · intro h
    by_cases htaut : (Fact.of a op b).isTautology = true
    · exact .inr htaut
    have hstraight := Bool.eq_false_iff.2 htaut
    have hturned := Fact.isTautology_of_flip.trans hstraight
    have hmeet := h (empty.add (.of a op b)) (empty.add (.of b op.flip a))
      (.inl (has_iff.2 (mem_add.2 (.inl ⟨rfl, hstraight⟩))))
      (.inr (has_iff.2 (mem_add.2 (.inl ⟨rfl, hturned⟩))))
    rcases relates_meet.1 hmeet with ⟨-, hboth⟩ | ⟨hboth, -⟩
    · have hmem := (mem_add.1 (has_iff.1 hboth)).resolve_right (SortedSet.not_mem_empty _)
      exact .inl hmem.1.symm
    · have hmem := (mem_add.1 (has_iff.1 hboth)).resolve_right (SortedSet.not_mem_empty _)
      exact .inl hmem.1
  · rintro (hone | htaut) s t hs ht
    · simp only [Relates, has_iff, hone, or_self, mem_meet] at hs ht ⊢
      exact ⟨hs, ht⟩
    · exact absurd hs (not_relates_of_isTautology htaut)

theorem eqvGen_of_has (h : s.has a .eq b = true) :
    EqvGen s.Equates a.simplify b.simplify := by
  by_cases hturn : a.simplify.isLiteral = true ∧ b.simplify.isLiteral = false
  · obtain ⟨hl, ho, hr⟩ := Fact.of_turned .eq hturn.1 hturn.2
    exact .symm _ _ (.rel _ _ ⟨_, has_iff.1 h, ho, hl, hr⟩)
  · obtain ⟨hl, ho, hr⟩ := Fact.of_straight .eq hturn
    exact .rel _ _ ⟨_, has_iff.1 h, ho, hl, hr⟩

theorem mem_aliases_of_relates (h : s.Relates a .eq b) : b.simplify ∈ s.aliases a :=
  s.isClosure_classes.mem_classOf.2 <| h.elim eqvGen_of_has fun h => .symm _ _ (eqvGen_of_has h)

/-- A join has a comparison exactly if both sides of it have one direction of it. It has
whatever both sides have in some direction exactly if one side of the comparison alone is an
integer literal, or the comparison is one of an expression with itself and not a strict one. An
equality that it has makes aliases. -/
theorem meet_relates (a : Expr) (op : Comparison) (b : Expr) :
    (∀ s t : Facts, (s.meet t).Relates a op b ↔
      s.has a op b = true ∧ t.has a op b = true ∨
        s.has b op.flip a = true ∧ t.has b op.flip a = true) ∧
    ((∀ s t : Facts, s.Relates a op b → t.Relates a op b → (s.meet t).Relates a op b) ↔
      a.simplify.isLiteral ≠ b.simplify.isLiteral ∨
        a.simplify = b.simplify ∧ op ≠ .lt ∧ op ≠ .gt) ∧
    ∀ s t : Facts, (s.meet t).Relates a .eq b → b.simplify ∈ (s.meet t).aliases a := by
  refine ⟨fun s t => relates_meet, forall_relates_meet_iff.trans ?_,
    fun s t => mem_aliases_of_relates⟩
  rw [Fact.of_flip_eq_iff, Fact.isTautology_of_iff, or_assoc, ← and_or_left]
  cases op <;> simp [Comparison.flip]

/-- Two sets know that two locals are equal, the one as `x == y` and the other as `y == x`, and
their join does not. -/
theorem meet_unrelates_turned :
    let s := empty.add (.of (chained "x") .eq (chained "y"))
    let t := empty.add (.of (chained "y") .eq (chained "x"))
    s.Relates (chained "x") .eq (chained "y") ∧ t.Relates (chained "x") .eq (chained "y") ∧
      ¬ (s.meet t).Relates (chained "x") .eq (chained "y") ∧
      chained "y" ∉ (s.meet t).aliases (chained "x") := by
  decide

end Facts

end Typestate

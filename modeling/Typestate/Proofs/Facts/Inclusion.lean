import Typestate.Proofs.Facts.Entry
import Typestate.Proofs.Facts.Return
import Typestate.Proofs.Facts.Soundness

/-!
# Subsets of facts

The more equalities there are, the coarser are their classes: each class of a subset of the
equalities lies in one class of them all. So a subset of a possible set of facts is possible,
and a literal value that it knows is the value that the whole set knows. Copies, conditions,
switches, calls and returns take a subset of facts to a subset of the facts after it.
-/
namespace Typestate

namespace Partition

def Refines (p q : Partition) : Prop := ∀ c ∈ p.classes, ∃ d ∈ q.classes, ∀ x ∈ c, x ∈ d

theorem exists_class_of_pair {pairs : List (Expr × Expr)} {ab : Expr × Expr} (h : ab ∈ pairs) :
    ∃ c ∈ (ofPairs pairs).classes, ab.1 ∈ c ∧ ab.2 ∈ c := by
  have fold : ∀ (l : List (Expr × Expr)) (p : Partition),
      (ab ∈ l ∨ ∃ c ∈ p.classes, ab.1 ∈ c ∧ ab.2 ∈ c) →
      ∃ c ∈ (l.foldl (fun p ab => p.link ab.1 ab.2) p).classes, ab.1 ∈ c ∧ ab.2 ∈ c := by
    intro l
    induction l with
    | nil => exact fun p h => h.resolve_left List.not_mem_nil
    | cons xy l ih =>
      intro p h
      refine ih _ ?_
      rcases h with h | ⟨c, hc, ha, hb⟩
      · rcases List.mem_cons.1 h with rfl | h
        · exact .inr ⟨_, mem_link.2 (.inl rfl), mem_joined.2 (.inl rfl),
            mem_joined.2 (.inr (.inl rfl))⟩
        · exact .inl h
      · by_cases htouched : xy.1 ∈ c ∨ xy.2 ∈ c
        · exact .inr ⟨_, mem_link.2 (.inl rfl), mem_joined.2 (.inr (.inr ⟨c, hc, htouched, ha⟩)),
            mem_joined.2 (.inr (.inr ⟨c, hc, htouched, hb⟩))⟩
        · exact .inr ⟨c, mem_link.2 (.inr ⟨hc, htouched⟩), ha, hb⟩
  exact fold pairs empty (.inl h)

theorem refines_ofPairs {pairs pairs' : List (Expr × Expr)} (h : ∀ ab ∈ pairs, ab ∈ pairs') :
    (ofPairs pairs).Refines (ofPairs pairs') := by
  have hdisjoint := disjoint_ofPairs pairs'
  refine ofPairs_induction (P := fun p => p.Refines (ofPairs pairs'))
    (fun _ hc => absurd hc (SortedSet.not_mem_empty _)) ?_
  intro p hp ab hab c hc
  rcases mem_link.1 hc with rfl | ⟨hc, -⟩
  · obtain ⟨d, hd, ha, hb⟩ := exists_class_of_pair (h ab hab)
    refine ⟨d, hd, fun x hx => ?_⟩
    rcases mem_joined.1 hx with rfl | rfl | ⟨c, hc, htouched, hxc⟩
    · exact ha
    · exact hb
    · obtain ⟨d', hd', hsub⟩ := hp c hc
      obtain rfl : d' = d := by
        rcases htouched with hac | hbc
        · exact hdisjoint d' hd' d hd _ (hsub _ hac) ha
        · exact hdisjoint d' hd' d hd _ (hsub _ hbc) hb
      exact hsub x hxc
  · exact hp c hc

theorem Disjoint.classOf_eq {p : Partition} (hp : p.Disjoint) {c : EquivClass}
    (hc : c ∈ p.classes) {e : Expr} (he : e ∈ c) : p.classOf e = some c := by
  cases h : p.classOf e with
  | none => exact absurd he (classOf_eq_none h c hc)
  | some d =>
    obtain ⟨hd, hed⟩ := classOf_eq_some h
    rw [hp d hd c hc e hed he]

theorem literals_eq_singleton {c : EquivClass} {n : Int} (hone : (literals c).length ≤ 1)
    (hn : Expr.lit n ∈ c) : literals c = [n] := by
  have hmem := mem_literals.2 hn
  rcases hl : literals c with _ | ⟨m, _ | ⟨m', l⟩⟩
  · rw [hl] at hmem
    cases hmem
  · rw [hl] at hmem
    rw [List.mem_singleton.1 hmem]
  · rw [hl] at hone
    simp at hone

theorem mem_of_constantOf {p : Partition} {e : Expr} {n : Int} (he : e.literal? = none)
    (hn : p.constantOf e = some n) : ∃ c ∈ p.classes, e ∈ c ∧ Expr.lit n ∈ c := by
  unfold constantOf at hn
  rw [he] at hn
  cases hc : p.classOf e with
  | none => simp [hc] at hn
  | some c =>
    obtain ⟨hc', hec⟩ := classOf_eq_some hc
    refine ⟨c, hc', hec, mem_literals.1 ?_⟩
    rw [hc, Option.map_some] at hn
    dsimp only at hn
    split at hn
    · rename_i m hm
      rw [← Option.some.inj hn, Option.some.inj hm]
      exact List.mem_singleton_self m
    · cases hn

theorem Disjoint.literal_mem {p : Partition} (hp : p.Disjoint) {c : EquivClass}
    (hc : c ∈ p.classes) {e : Expr} {n : Int} (he : e ∈ c) (hn : p.constantOf e = some n) :
    Expr.lit n ∈ c := by
  cases hlit : e.literal? with
  | some m =>
    obtain rfl := Expr.literal?_eq_some.1 hlit
    obtain rfl : m = n := Option.some.inj hn
    exact he
  | none =>
    obtain ⟨d, hd, hed, hnd⟩ := mem_of_constantOf hlit hn
    exact hp d hd c hc e hed he ▸ hnd

theorem Disjoint.constantOf_eq {p : Partition} (hp : p.Disjoint) {c : EquivClass}
    (hc : c ∈ p.classes) (hone : (literals c).length ≤ 1) {e : Expr} {n : Int} (he : e ∈ c)
    (hn : Expr.lit n ∈ c) : p.constantOf e = some n := by
  have hclass := literals_eq_singleton hone hn
  unfold constantOf
  split
  · rename_i m hm
    obtain rfl := Expr.literal?_eq_some.1 hm
    have hm : m ∈ literals c := mem_literals.2 he
    rw [hclass] at hm
    rw [List.mem_singleton.1 hm]
  · rw [hp.classOf_eq hc he, Option.map_some, hclass]

theorem Disjoint.constantOf_eq_of_sameClass {p : Partition} (hp : p.Disjoint)
    (hone : ∀ c ∈ p.classes, (literals c).length ≤ 1) {a b : Expr}
    (hab : p.sameClass a b = true) {n : Int} (hn : p.constantOf a = some n) :
    p.constantOf b = some n := by
  unfold sameClass at hab
  split at hab
  · rename_i c d hc hd
    obtain rfl : c = d := of_decide_eq_true hab
    obtain ⟨hc, ha⟩ := classOf_eq_some hc
    obtain ⟨-, hb⟩ := classOf_eq_some hd
    exact hp.constantOf_eq hc (hone c hc) hb (hp.literal_mem hc ha hn)
  · rwa [← of_decide_eq_true hab]

namespace Refines

variable {p q : Partition}

/-- What a finer partition knows, a coarser one does whose classes have a literal at most. -/
theorem constantOf_eq (h : p.Refines q) (hq : q.Disjoint)
    (hone : ∀ d ∈ q.classes, (literals d).length ≤ 1) {e : Expr} {n : Int}
    (hn : p.constantOf e = some n) : q.constantOf e = some n := by
  cases he : e.literal? with
  | some m =>
    unfold constantOf at hn ⊢
    rwa [he] at hn ⊢
  | none =>
    obtain ⟨c, hc, hec, hnc⟩ := mem_of_constantOf he hn
    obtain ⟨d, hd, hsub⟩ := h c hc
    exact hq.constantOf_eq hd (hone d hd) (hsub _ hec) (hsub _ hnc)

theorem sameClass (h : p.Refines q) (hq : q.Disjoint) {a b : Expr}
    (hab : p.sameClass a b = true) : q.sameClass a b = true := by
  unfold Partition.sameClass at hab
  split at hab
  · rename_i c c' hc hc'
    obtain rfl : c = c' := of_decide_eq_true hab
    obtain ⟨hc, ha⟩ := classOf_eq_some hc
    obtain ⟨d, hd, hsub⟩ := h c hc
    have hda := hq.classOf_eq hd (hsub a ha)
    have hdb := hq.classOf_eq hd (hsub b (classOf_eq_some hc').2)
    simp [Partition.sameClass, hda, hdb]
  · obtain rfl := of_decide_eq_true hab
    unfold Partition.sameClass
    split
    · rename_i c c' hc hc'
      exact decide_eq_true (Option.some.inj (hc.symm.trans hc'))
    · exact decide_eq_true rfl

end Refines

end Partition

namespace Facts

instance : HasSubset Facts := ⟨fun s t => ∀ f ∈ s, f ∈ t⟩

variable {s t : Facts}

theorem refines_classes (h : s ⊆ t) : s.classes.Refines t.classes := by
  refine Partition.refines_ofPairs fun ab hab => ?_
  obtain ⟨f, hf, rfl⟩ := List.mem_map.1 hab
  obtain ⟨hf, hop⟩ := List.mem_filter.1 hf
  exact List.mem_map.2 ⟨f, List.mem_filter.2 ⟨h f hf, hop⟩, rfl⟩

theorem isPossible_iff : s.isPossible = true ↔
    (∀ c ∈ s.classes.classes, (Partition.literals c).length ≤ 1) ∧
    ∀ f ∈ s, f.op ≠ .eq → agrees s.classes f = true := by
  simp only [isPossible, Bool.and_eq_true, List.all_eq_true, List.mem_filter, decide_eq_true_eq,
    and_imp]
  rfl

/-- A literal value that a subset knows is known to the whole set, if that is possible. -/
theorem constantOf_of_subset (h : s ⊆ t) (ht : t.isPossible = true) {e : Expr} {n : Int}
    (hn : s.constantOf e = some n) : t.constantOf e = some n :=
  (refines_classes h).constantOf_eq (Partition.disjoint_ofPairs _) (isPossible_iff.1 ht).1 hn

/-- A comparison that agrees with the classes of a possible set agrees with those of a
subset. -/
theorem agrees_of_subset (h : s ⊆ t) (ht : t.isPossible = true) {f : Fact}
    (hf : agrees t.classes f = true) : agrees s.classes f = true := by
  have hrefines := refines_classes h
  have hdisjoint : t.classes.Disjoint := Partition.disjoint_ofPairs _
  have hone := (isPossible_iff.1 ht).1
  unfold agrees
  split
  · rename_i m n hm hn
    rwa [agrees, hrefines.constantOf_eq hdisjoint hone hm,
      hrefines.constantOf_eq hdisjoint hone hn] at hf
  · simp only [Bool.not_eq_true', Bool.and_eq_false_iff]
    cases hsame : s.classes.sameClass f.left f.right with
    | false => exact .inr rfl
    | true =>
      have hsame := hrefines.sameClass hdisjoint hsame
      left
      unfold agrees at hf
      split at hf
      · rename_i m n hm hn
        have hmn : m = n := Option.some.inj
          ((hdisjoint.constantOf_eq_of_sameClass hone hsame hm).symm.trans hn)
        have hholds : f.op.Holds m n := of_decide_eq_true hf
        cases hop : f.op <;> simp [hop, hmn, Comparison.Holds] at hholds ⊢
      · simpa [hsame] using hf

/-- A subset of a possible set is possible. -/
theorem isPossible_of_subset (h : s ⊆ t) (ht : t.isPossible = true) : s.isPossible = true := by
  obtain ⟨hone, hagrees⟩ := isPossible_iff.1 ht
  refine isPossible_iff.2 ⟨fun c hc => ?_, fun f hf hop => ?_⟩
  · obtain ⟨d, hd, hsub⟩ := refines_classes h c hc
    refine Partition.length_literals_le_one_iff.2 fun m n hm hn => ?_
    exact Partition.length_literals_le_one_iff.1 (hone d hd) m n (hsub _ hm) (hsub _ hn)
  · exact agrees_of_subset h ht (hagrees f (h f hf) hop)

@[simp] theorem isPossible_empty : (∅ : Facts).isPossible = true := rfl

theorem isPossible_meet (h : s.isPossible = true) : (s.meet t).isPossible = true :=
  isPossible_of_subset (fun _ hf => (mem_meet.1 hf).1) h

end Facts

end Typestate

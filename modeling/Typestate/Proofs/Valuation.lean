import Typestate.Proofs.Expr
import Typestate.Proofs.Facts.Partition
import Typestate.Facts

/-!
# The meaning of facts

A valuation says what expressions are worth at a moment of a run; expressions of one
canonical form are worth the same. A set of facts claims that each of its comparisons holds.
The operations on sets are sound for this reading, and what a valuation satisfies is never
found impossible.
-/
namespace Typestate

/-- What expressions are worth. Only values of canonical expressions are ever asked for. -/
structure Valuation where
  value : Expr → Int
  value_lit : ∀ n, value (.lit n) = n

namespace Valuation

variable (v : Valuation)

/-- What an expression is worth, which is what its canonical form is. -/
def eval (e : Expr) : Int := v.value e.simplify

@[simp] theorem eval_lit (n : Int) : v.eval (.lit n) = n := v.value_lit n

@[simp] theorem eval_simplify (e : Expr) : v.eval e.simplify = v.eval e := by
  rw [eval, eval, Expr.simplify_of_isCanonical e.isCanonical_simplify]

theorem eval_of_literal? {e : Expr} {n : Int} (h : e.literal? = some n) : v.eval e = n := by
  rw [Expr.literal?_eq_some.1 h, eval_lit]

/-- The valuation that gives the expressions of a table their numbers and others zero. -/
def table (entries : List (Expr × Int)) : Valuation where
  value e := e.literal?.getD ((entries.lookup e).getD 0)
  value_lit _ := rfl

/-- A table that gives variables their numbers gives zero to what is no literal and no
variable. -/
theorem eval_table {entries : List (Expr × Int)} (hvar : ∀ x ∈ entries, ∃ y, x.1 = .var y)
    {e : Expr} (hlit : e.simplify.literal? = none) (he : e.simplify.asVariable = none) :
    (table entries).eval e = 0 := by
  have hlookup : entries.lookup e.simplify = none := by
    refine List.lookup_eq_none_iff.2 fun x hx => bne_iff_ne.2 fun h => ?_
    obtain ⟨y, hy⟩ := hvar x hx
    rw [h, hy] at he
    cases he
  simp [eval, table, hlookup, hlit]

def Holds (f : Fact) : Prop := f.op.Holds (v.eval f.left) (v.eval f.right)

instance (f : Fact) : Decidable (v.Holds f) :=
  inferInstanceAs (Decidable (f.op.Holds (v.eval f.left) (v.eval f.right)))

def Satisfies (s : Facts) : Prop := ∀ f ∈ s, v.Holds f

variable {v}

@[simp] theorem holds_of {a b : Expr} {op : Comparison} :
    v.Holds (Fact.of a op b) ↔ op.Holds (v.eval a) (v.eval b) := by
  unfold Fact.of
  split
  · simp only [Holds, eval_simplify]
    exact Comparison.holds_flip
  · simp only [Holds, eval_simplify]

theorem holds_of_isTautology {v : Valuation} {f : Fact} (h : f.isTautology = true) :
    v.Holds f := by
  obtain ⟨heq, hop⟩ : f.left = f.right ∧ ((f.op = .eq ∨ f.op = .le) ∨ f.op = .ge) := by
    simpa [Fact.isTautology] using h
  rw [Holds, heq]
  rcases hop with (hop | hop) | hop <;> rw [hop]
  · rfl
  · exact Int.le_refl _
  · exact Int.le_refl _

theorem satisfies_empty : v.Satisfies ∅ :=
  fun _ h => absurd h (SortedSet.not_mem_empty _)

theorem Satisfies.mono {s t : Facts} (h : v.Satisfies s) (hts : ∀ f ∈ t, f ∈ s) :
    v.Satisfies t :=
  fun f hf => h f (hts f hf)

theorem Satisfies.add {s : Facts} {f : Fact} (h : v.Satisfies s) (hf : v.Holds f) :
    v.Satisfies (s.add f) := by
  intro g hg
  rcases Facts.mem_add.1 hg with ⟨rfl, -⟩ | hg
  · exact hf
  · exact h g hg

theorem Satisfies.addAll {s : Facts} {l : List Fact} (h : v.Satisfies s)
    (hl : ∀ f ∈ l, v.Holds f) : v.Satisfies (s.addAll l) := by
  unfold Facts.addAll
  induction l generalizing s with
  | nil => exact h
  | cons f l ih => exact ih (h.add (hl f (by simp))) fun g hg => hl g (by simp [hg])

end Valuation

namespace Facts

theorem mem_toList {s : Facts} {f : Fact} : f ∈ s.toList ↔ f ∈ s := Iff.rfl

theorem mem_forget {s : Facts} {e : Expr} {f : Fact} :
    f ∈ s.forget e ↔ f ∈ s ∧ f.mentions e = false := by
  simp [forget]

theorem mem_foldl_forget {l : List Expr} {s : Facts} {f : Fact} :
    f ∈ l.foldl forget s ↔ f ∈ s ∧ ∀ e ∈ l, f.mentions e = false := by
  induction l generalizing s with
  | nil => simp
  | cons e l ih => simp [ih, mem_forget, and_assoc]

variable {v : Valuation} {s : Facts}

theorem eval_eq_of_class (h : v.Satisfies s) {c : EquivClass} (hc : c ∈ s.classes.classes)
    {x y : Expr} (hx : x ∈ c) (hy : y ∈ c) : v.eval x = v.eval y := by
  refine Partition.constant_on_class v.eval ?_ c hc x hx y hy
  intro ab hab
  obtain ⟨f, hf, rfl⟩ := List.mem_map.1 hab
  obtain ⟨hf, hop⟩ := List.mem_filter.1 hf
  have := h f hf
  rwa [Valuation.Holds, of_decide_eq_true hop] at this

theorem eval_of_classes_constantOf (h : v.Satisfies s) {e : Expr} {n : Int}
    (hn : s.classes.constantOf e = some n) : v.eval e = n := by
  unfold Partition.constantOf at hn
  split at hn
  · rename_i m hm
    exact (v.eval_of_literal? hm).trans (Option.some.inj hn)
  · cases hc : s.classes.classOf e with
    | none => simp [hc] at hn
    | some c =>
      obtain ⟨hc', he⟩ := Partition.classOf_eq_some hc
      rw [hc, Option.map_some] at hn
      split at hn
      · rename_i m hm
        obtain rfl : m = n := Option.some.inj hn
        have hlit : Expr.lit m ∈ c := Partition.mem_literals.1 (by
          rw [Option.some.inj hm]; simp)
        rw [eval_eq_of_class h hc' he hlit, v.eval_lit]
      · cases hn

theorem eval_of_constantOf (h : v.Satisfies s) {e : Expr} {n : Int}
    (hn : s.constantOf e = some n) : v.eval e = n := by
  rw [← v.eval_simplify]
  exact eval_of_classes_constantOf h hn

theorem eval_eq_of_sameClass (h : v.Satisfies s) {a b : Expr}
    (hab : s.classes.sameClass a b = true) : v.eval a = v.eval b := by
  unfold Partition.sameClass at hab
  split at hab
  · rename_i c d hc hd
    obtain ⟨hc, ha⟩ := Partition.classOf_eq_some hc
    obtain ⟨-, hb⟩ := Partition.classOf_eq_some hd
    have hcd : c = d := of_decide_eq_true hab
    exact eval_eq_of_class h hc ha (hcd ▸ hb)
  · rw [of_decide_eq_true hab]

theorem agrees_of_holds (h : v.Satisfies s) {f : Fact} (hf : v.Holds f) :
    agrees s.classes f = true := by
  unfold agrees
  split
  · rename_i a b ha hb
    rw [Valuation.Holds, eval_of_classes_constantOf h ha, eval_of_classes_constantOf h hb] at hf
    exact decide_eq_true hf
  · simp only [Bool.not_eq_true', Bool.and_eq_false_iff]
    by_cases hs : s.classes.sameClass f.left f.right = true
    · have heq := eval_eq_of_sameClass h hs
      rw [Valuation.Holds, heq] at hf
      left
      cases hop : f.op <;> simp_all [Comparison.Holds]
    · exact .inr (by simpa using hs)

theorem length_literals_le (h : v.Satisfies s) {c : EquivClass} (hc : c ∈ s.classes.classes) :
    (Partition.literals c).length ≤ 1 := by
  refine Partition.length_literals_le_one_iff.2 fun m n hm hn => ?_
  have := eval_eq_of_class h hc hm hn
  rwa [v.eval_lit, v.eval_lit] at this

/-- No contradiction is found where there is none. -/
theorem isPossible_of_satisfies (h : v.Satisfies s) : s.isPossible = true := by
  simp only [isPossible, Bool.and_eq_true, List.all_eq_true, decide_eq_true_eq]
  refine ⟨fun c hc => length_literals_le h hc, fun f hf => ?_⟩
  exact agrees_of_holds h (h f (List.mem_filter.1 hf).1)

/-- What holds of tautologies holds of all facts with one added if it holds of that too. -/
theorem forall_mem_add {P : Fact → Prop} (hP : ∀ f, f.isTautology = true → P f) {s : Facts}
    {f : Fact} : (∀ g ∈ s.add f, P g) ↔ (∀ g ∈ s, P g) ∧ P f := by
  constructor
  · refine fun h => ⟨fun g hg => h g (mem_add.2 (.inr hg)), ?_⟩
    cases ht : f.isTautology with
    | true => exact hP f ht
    | false => exact h f (mem_add.2 (.inl ⟨rfl, ht⟩))
  · rintro ⟨hs, hf⟩ g hg
    rcases mem_add.1 hg with ⟨rfl, -⟩ | hg
    · exact hf
    · exact hs g hg

theorem forall_mem_addAll {P : Fact → Prop} (hP : ∀ f, f.isTautology = true → P f)
    {l : List Fact} {s : Facts} :
    (∀ g ∈ s.addAll l, P g) ↔ (∀ g ∈ s, P g) ∧ ∀ g ∈ l, P g := by
  unfold addAll
  induction l generalizing s with
  | nil => simp
  | cons f l ih => rw [List.foldl_cons, ih, forall_mem_add hP, List.forall_mem_cons, and_assoc]

end Facts

end Typestate

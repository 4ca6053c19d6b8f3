import Mathlib.Data.List.Chain
import Mathlib.Data.List.Nodup
import Typestate.Proofs.Facts.Soundness

/-!
# What the labels of a switch say

In ascending order the labels on a switch edge may form one run, in which each label starts right
after the one before it ends. Then the facts of the edge hold for the values that have a label and
for no others; labels that form no run say nothing.
-/
namespace Typestate

namespace CaseLabel

def Covers (c : CaseLabel) (n : Int) : Prop := c.low ≤ n ∧ n ≤ c.high

def Adjoins (c d : CaseLabel) : Prop := d.low = c.high + 1

/-- Whether a label has values, and words only. -/
structure IsProper (c : CaseLabel) : Prop where
  low : Word.min ≤ c.low
  ordered : c.low ≤ c.high
  high : c.high ≤ Word.max

variable {c d : CaseLabel} {l sorted sorted' : List CaseLabel}

theorem isProper_iff : c.IsProper ↔ Word.min ≤ c.low ∧ c.low ≤ c.high ∧ c.high ≤ Word.max :=
  ⟨fun h => ⟨h.low, h.ordered, h.high⟩, fun h => ⟨h.1, h.2.1, h.2.2⟩⟩

instance (c : CaseLabel) : Decidable c.IsProper := decidable_of_iff' _ isProper_iff

/-- The successor of a label's end is looked for among words, which loses no label: where it is no
word, no label starts there. -/
theorem IsProper.check_eq_some_iff (hd : d.IsProper) :
    Word.check (c.high + 1) = some d.low ↔ c.Adjoins d := by
  rw [Word.check_eq_some_iff, Adjoins]
  constructor
  · exact fun h => h.1.symm
  · intro h
    have hlow := hd.low
    have hhigh := Int.le_trans hd.ordered hd.high
    exact ⟨h.symm, by omega, by omega⟩

theorem pairwise_low_of_isChain (hl : ∀ c ∈ l, c.low ≤ c.high) (h : l.IsChain Adjoins) :
    (l.map low).Pairwise (· < ·) := by
  rw [← List.isChain_iff_pairwise, List.isChain_map]
  refine h.imp_of_mem_imp fun c d hc _ hcd => ?_
  rw [hcd]
  exact Int.lt_add_one_of_le (hl c hc)

theorem eq_of_isChain (hl : ∀ c ∈ sorted, c.low ≤ c.high) (h : sorted.IsChain Adjoins)
    (hsorted : sorted.Pairwise (·.low ≤ ·.low)) (hsorted' : sorted'.Pairwise (·.low ≤ ·.low))
    (hperm : sorted.Perm sorted') : sorted = sorted' := by
  have hnodup : (sorted.map low).Nodup := (pairwise_low_of_isChain hl h).imp Int.ne_of_lt
  refine hperm.eq_of_pairwise (fun c d hc hd hcd hdc => ?_) hsorted hsorted'
  exact List.inj_on_of_nodup_map hnodup hc (hperm.mem_iff.2 hd) (Int.le_antisymm hcd hdc)

theorem isChain_congr (hl : ∀ c ∈ sorted, c.low ≤ c.high)
    (hsorted : sorted.Pairwise (·.low ≤ ·.low)) (hsorted' : sorted'.Pairwise (·.low ≤ ·.low))
    (hperm : sorted.Perm sorted') : sorted.IsChain Adjoins ↔ sorted'.IsChain Adjoins := by
  have hl' : ∀ c ∈ sorted', c.low ≤ c.high := fun c hc => hl c (hperm.mem_iff.2 hc)
  constructor
  · exact fun h => eq_of_isChain hl h hsorted hsorted' hperm ▸ h
  · exact fun h => eq_of_isChain hl' h hsorted' hsorted hperm.symm ▸ h

end CaseLabel

namespace Facts

open CaseLabel

variable {c : CaseLabel} {rest cases : List CaseLabel} {high n : Int} {index : Expr}
  {v : Valuation}

theorem exists_runEnd_iff (hrest : ∀ d ∈ rest, d.IsProper) :
    (∃ high, runEnd c.high rest = some high) ↔ (c :: rest).IsChain Adjoins := by
  induction rest generalizing c with
  | nil => exact ⟨fun _ => List.isChain_singleton c, fun _ => ⟨c.high, rfl⟩⟩
  | cons d rest ih =>
    obtain ⟨hd, hrest⟩ := List.forall_mem_cons.1 hrest
    rw [List.isChain_cons_cons, ← ih hrest, ← hd.check_eq_some_iff]
    simp only [runEnd]
    split
    · rename_i h
      exact (and_iff_right h).symm
    · rename_i h
      simp [h]

/-- The labels of a run leave no gap. -/
theorem exists_covers_of_runEnd (hrun : runEnd c.high rest = some high) (hlow : c.low ≤ n)
    (hhigh : n ≤ high) : ∃ d ∈ c :: rest, d.Covers n := by
  induction rest generalizing c with
  | nil =>
    obtain rfl := Option.some.inj hrun
    exact ⟨c, by simp, hlow, hhigh⟩
  | cons d rest ih =>
    by_cases hn : n ≤ c.high
    · exact ⟨c, by simp, hlow, hn⟩
    · unfold runEnd at hrun
      split at hrun
      · rename_i hd
        have hd : c.high + 1 = d.low := (Word.check_eq_some_iff.1 hd).1
        obtain ⟨x, hx, hcovers⟩ := ih hrun (by omega)
        exact ⟨x, List.mem_cons_of_mem c hx, hcovers⟩
      · cases hrun

theorem pairwise_sorted (cases : List CaseLabel) :
    (cases.mergeSort fun c d => decide (c.low ≤ d.low)).Pairwise (·.low ≤ ·.low) := by
  have htrans : ∀ a b c : CaseLabel, decide (a.low ≤ b.low) = true → decide (b.low ≤ c.low) = true →
      decide (a.low ≤ c.low) = true := by
    simp only [decide_eq_true_eq]
    exact fun _ _ _ hab hbc => Int.le_trans hab hbc
  have htotal : ∀ a b : CaseLabel, (decide (a.low ≤ b.low) || decide (b.low ≤ a.low)) = true := by
    simp only [Bool.or_eq_true, decide_eq_true_eq]
    exact fun a b => Int.le_total a.low b.low
  have h := List.pairwise_mergeSort htrans htotal cases
  exact h.imp of_decide_eq_true

theorem ofLabels_eq_nil_iff (hcases : ∀ c ∈ cases, c.IsProper) : ofLabels index cases = [] ↔
    cases = [] ∨ ¬ (cases.mergeSort fun c d => decide (c.low ≤ d.low)).IsChain Adjoins := by
  have hperm := List.mergeSort_perm cases fun c d => decide (c.low ≤ d.low)
  unfold ofLabels
  split
  · rename_i hsort
    rw [hsort] at hperm
    exact ⟨fun _ => .inl hperm.nil_eq.symm, fun _ => rfl⟩
  · rename_i first rest hsort
    have hne : cases ≠ [] := by
      rintro rfl
      simp at hsort
    have hrest : ∀ d ∈ rest, d.IsProper := fun d hd =>
      hcases d (hperm.mem_iff.1 (hsort ▸ List.mem_cons_of_mem first hd))
    rw [hsort, ← exists_runEnd_iff hrest, or_iff_right hne]
    split
    · rename_i hrun
      simp [hrun]
    · rename_i high hrun
      have hends : ¬ ∀ x, runEnd first.high rest ≠ some x := fun h => h high hrun
      rw [not_exists]
      split <;> simp [hends]

theorem exists_covers_of_holds (hne : ofLabels index cases ≠ [])
    (h : ∀ f ∈ ofLabels index cases, v.Holds f) : ∃ c ∈ cases, c.Covers (v.eval index) := by
  unfold ofLabels at hne h
  split at hne
  · cases hne rfl
  · rename_i first rest hsort
    rw [hsort] at h
    dsimp only at h hne
    split at hne
    · cases hne rfl
    · rename_i high hrun
      rw [hrun] at h
      have hbounds : first.low ≤ v.eval index ∧ v.eval index ≤ high := by
        dsimp only at h
        split at h
        · rename_i hone
          have heq : v.eval index = first.low := holds_literal.1 (List.forall_mem_singleton.1 h)
          omega
        · obtain ⟨hlow, hhigh⟩ := List.forall_mem_cons.1 h
          exact ⟨holds_literal.1 hlow, holds_literal.1 (List.forall_mem_singleton.1 hhigh)⟩
      obtain ⟨c, hc, hcovers⟩ := exists_covers_of_runEnd hrun hbounds.1 hbounds.2
      exact ⟨c, List.mem_mergeSort.1 (hsort ▸ hc), hcovers⟩

/-- The facts of a switch edge hold for just the values that have a label, and there are none just
if the labels, in any ascending order, are no run. -/
theorem ofLabels_describes (hcases : ∀ c ∈ cases, c.IsProper) (index : Expr) :
    (ofLabels index cases ≠ [] → ∀ v : Valuation,
      (∀ f ∈ ofLabels index cases, v.Holds f) ↔ ∃ c ∈ cases, c.Covers (v.eval index)) ∧
    ∀ sorted : List CaseLabel, sorted.Perm cases → sorted.Pairwise (·.low ≤ ·.low) →
      (ofLabels index cases = [] ↔ cases = [] ∨ ¬ sorted.IsChain Adjoins) := by
  have hordered : ∀ c ∈ cases, c.low ≤ c.high := fun c hc => (hcases c hc).ordered
  refine ⟨fun hne v => ⟨exists_covers_of_holds hne, holds_ofLabels hordered⟩, ?_⟩
  intro sorted hperm hsorted
  rw [ofLabels_eq_nil_iff hcases]
  have hsort := List.mergeSort_perm cases fun c d => decide (c.low ≤ d.low)
  rw [isChain_congr (fun c hc => hordered c (hperm.mem_iff.1 hc)) hsorted (pairwise_sorted cases)
    (hperm.trans hsort.symm)]

def switched : Expr := .var ⟨"k", some 0, .localVar, .integer⟩

/-- Two labels out of order, which end with the greatest word. -/
def topmost : List CaseLabel := [⟨Word.max, Word.max⟩, ⟨Word.max - 3, Word.max - 1⟩]

/-- The greatest and the least word, of which neither follows the other. -/
def outermost : List CaseLabel := [⟨Word.max, Word.max⟩, ⟨Word.min, Word.min⟩]

theorem ofLabels_describes_topmost :
    ((∀ c ∈ topmost, c.IsProper) ∧ ofLabels switched topmost ≠ [] ∧
      ∀ v : Valuation, (∀ f ∈ ofLabels switched topmost, v.Holds f) ↔
        ∃ c ∈ topmost, c.Covers (v.eval switched)) ∧
    (∀ c ∈ outermost, c.IsProper) ∧ ofLabels switched outermost = [] := by
  have htopmost : ∀ c ∈ topmost, c.IsProper := by decide
  have houtermost : ∀ c ∈ outermost, c.IsProper := by decide
  obtain ⟨hholds, htop⟩ := ofLabels_describes htopmost switched
  obtain ⟨-, hout⟩ := ofLabels_describes houtermost switched
  have hne : ofLabels switched topmost ≠ [] := by
    rw [ne_eq, htop _ (List.Perm.swap _ _ []) (by simp [Word.max])]
    simp [topmost, Adjoins]
  refine ⟨⟨htopmost, hne, hholds hne⟩, houtermost, ?_⟩
  rw [hout _ (List.Perm.swap _ _ []) (by simp [Word.min, Word.max])]
  simp [Adjoins, Word.min, Word.max]

end Facts

end Typestate

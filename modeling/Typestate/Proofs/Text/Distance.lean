import Mathlib.Data.List.MinMax
import Typestate.Proofs.Text.Edits
import Typestate.Text.Distance

/-!
# Suggestions are nearest by edits

Whenever the two rows have changed places, the complete one holds the least numbers of edits from
the characters taken from the source so far to each prefix of the target. The other one holds what
is out of date; each of its entries is written before it is read. So the distance of two texts is
the least number of edits between them, which makes it a metric, and a suggestion names the first of
the candidates at the least distance.
-/
namespace Typestate.Text

namespace Rows

variable {target : List Char}

/-- Whether each entry of the complete row is the least number of edits from a text to the prefix of
the target that it stands for. -/
def Measures (r : Rows target.length) (s : List Char) : Prop :=
  ∀ j, (h : j ≤ target.length) → IsDistance s (target.take j) r.complete[j]

theorem measures_start (target : List Char) : (start target.length).Measures [] := by
  intro j hj
  have hentry : (start target.length).complete[j] = (target.take j).length := by
    simp [start, hj]
  rw [hentry]
  exact .nil_left _

@[simp] theorem complete_fill (r : Rows target.length) (c : Char) (i j : Nat)
    (h : j ≤ target.length) : (fill target r c i j h).complete = r.complete := by
  induction j with
  | zero => rfl
  | succ j ih => exact ih (Nat.le_of_succ_le h)

/-- The entries written so far measure the text with one more character. -/
theorem next_fill {r : Rows target.length} {s : List Char} (hr : r.Measures s) (c : Char) (j : Nat)
    (h : j ≤ target.length) : ∀ k, (hk : k ≤ j) →
      IsDistance (s ++ [c]) (target.take k) (fill target r c s.length j h).next[k] := by
  induction j with
  | zero =>
    intro k hk
    obtain rfl := Nat.le_zero.1 hk
    simpa [fill] using IsDistance.nil_right (s ++ [c])
  | succ j ih =>
    intro k hk
    have hbefore := ih (Nat.le_of_succ_le h)
    by_cases hlast : k = j + 1
    · subst hlast
      have htake : target.take (j + 1) = target.take j ++ [target[j]] := by simp
      have hdelete := hr (j + 1) h
      rw [htake] at hdelete ⊢
      have := hdelete.concat (hbefore j (Nat.le_refl j)) (hr j (Nat.le_of_succ_le h))
      simpa [fill, write] using this
    · have hkept : (fill target r c s.length (j + 1) h).next[k] =
          (fill target r c s.length j (Nat.le_of_succ_le h)).next[k] := by
        simp [fill, write, Ne.symm hlast]
      rw [hkept]
      exact hbefore k (by omega)

theorem measures_advance {source s : List Char} {r : Rows target.length} (hr : r.Measures s) :
    (advance target source s.length r).Measures (s ++ source) := by
  induction source generalizing s r with
  | nil => simpa [advance] using hr
  | cons c source ih =>
    have hnext : (fill target r c s.length target.length (Nat.le_refl _)).swap.Measures
        (s ++ [c]) := next_fill hr c target.length (Nat.le_refl _)
    simpa [advance] using ih hnext

end Rows

variable {wanted c : String} {candidates : List String}

theorem isDistance_distance (s t : List Char) : IsDistance s t (distance s t) := by
  have hmeasures : (Rows.advance t s 0 (.start t.length)).Measures s :=
    Rows.measures_advance (Rows.measures_start t)
  simpa [distance] using hmeasures t.length (Nat.le_refl _)

theorem distance_le {n : Nat} {s t : List Char} (h : Edits n s t) : distance s t ≤ n :=
  (isDistance_distance s t).2 h

theorem edits_distance (s t : List Char) : Edits (distance s t) s t := (isDistance_distance s t).1

theorem distance_eq_zero_iff {s t : List Char} : distance s t = 0 ↔ s = t := by
  constructor
  · intro h
    exact (h ▸ edits_distance s t).eq_of_zero
  · rintro rfl
    exact Nat.le_zero.1 (distance_le (.nil s))

theorem distance_comm (s t : List Char) : distance s t = distance t s :=
  Nat.le_antisymm (distance_le (edits_distance t s).symm) (distance_le (edits_distance s t).symm)

theorem distance_triangle (s t u : List Char) : distance s u ≤ distance s t + distance t u :=
  distance_le ((edits_distance s t).trans (edits_distance t u))

theorem closest?_eq_argmin (wanted : String) (candidates : List String) :
    closest? wanted candidates = candidates.argmin fun c => distance wanted.toList c.toList := by
  unfold closest? List.argmin
  congr 1
  funext best c
  cases best <;> rfl

/-- The closest candidate is strictly closer than those before it, and no candidate after it is
closer. -/
theorem closest?_spec (h : closest? wanted candidates = some c) :
    ∃ before after, candidates = before ++ c :: after ∧
      (∀ b ∈ before, distance wanted.toList c.toList < distance wanted.toList b.toList) ∧
      ∀ a ∈ after, distance wanted.toList c.toList ≤ distance wanted.toList a.toList := by
  rw [closest?_eq_argmin] at h
  obtain ⟨hmem, hleast, hfirst⟩ := List.argmin_eq_some_iff.1 h
  obtain ⟨before, after, rfl, hnot⟩ := List.eq_append_cons_of_mem hmem
  refine ⟨before, after, rfl, ?_, fun a ha => hleast a (by simp [ha])⟩
  intro b hb
  by_contra hle
  have hidx := hfirst b (List.mem_append_left _ hb) (Nat.le_of_not_lt hle)
  rw [List.idxOf_append_of_mem hb, List.idxOf_append_of_notMem hnot] at hidx
  have := List.idxOf_lt_length_of_mem hb
  omega

/-- The distance of two texts is the least number of edits that turn the one into the other. So it
is zero for equal texts only, symmetric, and satisfies the triangle inequality. A suggestion among
at least one candidate names the first of those at the least distance. -/
theorem suggestion_nearest_by_edits (wanted first : String) (rest : List String) :
    (∀ s t : List Char, IsLeast {n | Edits n s t} (distance s t)) ∧
    (∀ s t : List Char, distance s t = 0 ↔ s = t) ∧
    (∀ s t : List Char, distance s t = distance t s) ∧
    (∀ s t u : List Char, distance s u ≤ distance s t + distance t u) ∧
    ∃ before c after, first :: rest = before ++ c :: after ∧
      suggestion wanted (first :: rest) = s!"Did you mean '{c}'?" ∧
      (∀ b ∈ before, distance wanted.toList c.toList < distance wanted.toList b.toList) ∧
      ∀ a ∈ after, distance wanted.toList c.toList ≤ distance wanted.toList a.toList := by
  refine ⟨isDistance_distance, fun s t => distance_eq_zero_iff, distance_comm,
    distance_triangle, ?_⟩
  cases hclosest : closest? wanted (first :: rest) with
  | none =>
    rw [closest?_eq_argmin, List.argmin_eq_none] at hclosest
    cases hclosest
  | some c =>
    obtain ⟨before, after, hsplit, hbefore, hafter⟩ := closest?_spec hclosest
    exact ⟨before, c, after, hsplit, by rw [suggestion, hclosest], hbefore, hafter⟩

/-- Of two candidates one edit away the first is named. -/
example : suggestion "prt" ["data", "pr", "pt"] = "Did you mean 'pr'?" := by decide +kernel

end Typestate.Text

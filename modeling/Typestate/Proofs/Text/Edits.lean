import Mathlib.Order.Bounds.Basic
import Mathlib.Order.Lattice

/-!
# The least number of edits

An edit inserts, deletes or replaces one character anywhere in a text. Texts that some edits lead
from one to the other can be aligned: their characters stand side by side in order, each beside an
equal one, beside another one or beside none, and no more of them stand beside an unequal one or
none than there were edits. An alignment of two texts ends with one of the two last characters
alone or with both. So the least number of edits between texts comes from the least numbers
between the texts without their last characters.
-/
namespace Typestate.Text

/-- One character is inserted, deleted or replaced. -/
inductive Edit : List Char → List Char → Prop
  | insert (l r : List Char) (c : Char) : Edit (l ++ r) (l ++ c :: r)
  | delete (l r : List Char) (c : Char) : Edit (l ++ c :: r) (l ++ r)
  | replace (l r : List Char) (c d : Char) : Edit (l ++ c :: r) (l ++ d :: r)

/-- So many edits, one after the other, turn the first text into the second. -/
inductive Edits : Nat → List Char → List Char → Prop
  | nil (s : List Char) : Edits 0 s s
  | cons {n : Nat} {s t u : List Char} : Edit s t → Edits n t u → Edits (n + 1) s u

/-- The texts are aligned with at most so many characters that are not kept. -/
inductive Aligned : Nat → List Char → List Char → Prop
  | nil (n : Nat) : Aligned n [] []
  | keep {n : Nat} {s t : List Char} (c : Char) : Aligned n s t → Aligned n (c :: s) (c :: t)
  | replace {n : Nat} {s t : List Char} (c d : Char) :
      Aligned n s t → Aligned (n + 1) (c :: s) (d :: t)
  | delete {n : Nat} {s t : List Char} (c : Char) : Aligned n s t → Aligned (n + 1) (c :: s) t
  | insert {n : Nat} {s t : List Char} (d : Char) : Aligned n s t → Aligned (n + 1) s (d :: t)

variable {m n k : Nat} {s t u s' t' : List Char} {c d : Char}

namespace Edit

theorem symm (h : Edit s t) : Edit t s := by
  cases h with
  | insert l r c => exact .delete l r c
  | delete l r c => exact .insert l r c
  | replace l r c d => exact .replace l r d c

theorem within (h : Edit s t) (before after : List Char) :
    Edit (before ++ s ++ after) (before ++ t ++ after) := by
  cases h with
  | insert l r c => simpa using insert (before ++ l) (r ++ after) c
  | delete l r c => simpa using delete (before ++ l) (r ++ after) c
  | replace l r c d => simpa using replace (before ++ l) (r ++ after) c d

theorem length_le (h : Edit s t) : t.length ≤ s.length + 1 := by
  cases h <;> simp only [List.length_append, List.length_cons] <;> omega

end Edit

namespace Edits

theorem trans (h : Edits m s t) (h' : Edits n t u) : Edits (m + n) s u := by
  induction h with
  | nil s => rwa [Nat.zero_add]
  | cons hedit _ ih =>
    rw [Nat.add_right_comm]
    exact .cons hedit (ih h')

theorem concat (h : Edits n s t) (hedit : Edit t u) : Edits (n + 1) s u :=
  h.trans (.cons hedit (.nil u))

theorem symm (h : Edits n s t) : Edits n t s := by
  induction h with
  | nil s => exact .nil s
  | cons hedit _ ih => exact ih.concat hedit.symm

theorem within (h : Edits n s t) (before after : List Char) :
    Edits n (before ++ s ++ after) (before ++ t ++ after) := by
  induction h with
  | nil s => exact .nil _
  | cons hedit _ ih => exact .cons (hedit.within before after) ih

theorem after_cons (h : Edits n s t) (c : Char) : Edits n (c :: s) (c :: t) := by
  simpa using h.within [c] []

theorem before_concat (h : Edits n s t) (c : Char) : Edits n (s ++ [c]) (t ++ [c]) := by
  simpa using h.within [] [c]

theorem length_le (h : Edits n s t) : t.length ≤ s.length + n := by
  induction h with
  | nil s => exact Nat.le_refl _
  | cons hedit _ ih =>
    have := hedit.length_le
    omega

theorem eq_of_zero (h : Edits 0 s t) : s = t := by
  cases h
  rfl

end Edits

namespace Aligned

theorem add (h : Aligned n s t) (k : Nat) : Aligned (n + k) s t := by
  induction h with
  | nil n => exact .nil (n + k)
  | keep c _ ih => exact ih.keep c
  | replace c d _ ih =>
    rw [Nat.add_right_comm]
    exact ih.replace c d
  | delete c _ ih =>
    rw [Nat.add_right_comm]
    exact ih.delete c
  | insert d _ ih =>
    rw [Nat.add_right_comm]
    exact ih.insert d

theorem mono (h : Aligned m s t) (hle : m ≤ n) : Aligned n s t := by
  obtain ⟨k, rfl⟩ := Nat.exists_eq_add_of_le hle
  exact h.add k

theorem refl (s : List Char) : Aligned 0 s s := by
  induction s with
  | nil => exact .nil 0
  | cons c s ih => exact ih.keep c

theorem append (h : Aligned m s t) (h' : Aligned n s' t') :
    Aligned (m + n) (s ++ s') (t ++ t') := by
  induction h with
  | nil m => exact h'.mono (by omega)
  | keep c _ ih => exact ih.keep c
  | replace c d _ ih => exact (ih.replace c d).mono (by omega)
  | delete c _ ih => exact (ih.delete c).mono (by omega)
  | insert d _ ih => exact (ih.insert d).mono (by omega)

theorem reverse (h : Aligned n s t) : Aligned n s.reverse t.reverse := by
  induction h with
  | nil n => exact .nil n
  | keep c _ ih => simpa using ih.append (refl [c])
  | replace c d _ ih => simpa using ih.append ((refl []).replace c d)
  | delete c _ ih => simpa using ih.append ((refl []).delete c)
  | insert d _ ih => simpa using ih.append ((refl []).insert d)

/-- Two alignments with a text in between. A character in between that the one inserts and the
other deletes is dropped; then only the text in between gets shorter, so the recursion is on the
lengths of all three. -/
theorem trans : ∀ {m n : Nat} {s t u : List Char}, Aligned m s t → Aligned n t u →
    Aligned (m + n) s u
  | _, _, _, _, _, h, .insert d h' => (h.trans h').insert d
  | _, _, _, _, _, .delete c h, h' => ((h.trans h').delete c).mono (by omega)
  | _, _, _, _, _, .nil m, .nil n => .nil (m + n)
  | _, _, _, _, _, .keep c h, .keep _ h' => (h.trans h').keep c
  | _, _, _, _, _, .keep c h, .replace _ d h' => (h.trans h').replace c d
  | _, _, _, _, _, .keep c h, .delete _ h' => (h.trans h').delete c
  | _, _, _, _, _, .replace c d h, .keep _ h' => ((h.trans h').replace c d).mono (by omega)
  | _, _, _, _, _, .replace c _ h, .replace _ d h' => ((h.trans h').replace c d).mono (by omega)
  | _, _, _, _, _, .replace c _ h, .delete _ h' => ((h.trans h').delete c).mono (by omega)
  | _, _, _, _, _, .insert d h, .keep _ h' => ((h.trans h').insert d).mono (by omega)
  | _, _, _, _, _, .insert _ h, .replace _ d h' => ((h.trans h').insert d).mono (by omega)
  | _, _, _, _, _, .insert _ h, .delete _ h' => (h.trans h').mono (by omega)
termination_by _ _ s t u => s.length + t.length + u.length

theorem exists_edits (h : Aligned n s t) : ∃ k ≤ n, Edits k s t := by
  induction h with
  | nil n => exact ⟨0, Nat.zero_le n, .nil []⟩
  | keep c _ ih =>
    obtain ⟨k, hk, hedits⟩ := ih
    exact ⟨k, hk, hedits.after_cons c⟩
  | replace c d _ ih =>
    obtain ⟨k, hk, hedits⟩ := ih
    exact ⟨k + 1, by omega, .cons (.replace [] _ c d) (hedits.after_cons d)⟩
  | delete c _ ih =>
    obtain ⟨k, hk, hedits⟩ := ih
    exact ⟨k + 1, by omega, .cons (.delete [] _ c) hedits⟩
  | insert d _ ih =>
    obtain ⟨k, hk, hedits⟩ := ih
    exact ⟨k + 1, by omega, hedits.concat (.insert [] _ d)⟩

theorem of_concat (h : Aligned n (s ++ [c]) (t ++ [d])) :
    (∃ k, k + 1 = n ∧ Aligned k s (t ++ [d])) ∨ (∃ k, k + 1 = n ∧ Aligned k (s ++ [c]) t) ∨
      ∃ k, (k + if c = d then 0 else 1) = n ∧ Aligned k s t := by
  have hreverse := h.reverse
  rw [List.reverse_concat, List.reverse_concat] at hreverse
  cases hreverse with
  | keep c h => exact .inr (.inr ⟨n, by simp, by simpa using h.reverse⟩)
  | @replace k _ _ c d h =>
    have hlast : Aligned k s t := by simpa using h.reverse
    by_cases hcd : c = d
    · exact .inr (.inr ⟨k + 1, by simp [hcd], hlast.mono (Nat.le_succ k)⟩)
    · exact .inr (.inr ⟨k, by simp [hcd], hlast⟩)
  | @delete k _ _ c h => exact .inl ⟨k, rfl, by simpa using h.reverse⟩
  | @insert k _ _ d h => exact .inr (.inl ⟨k, rfl, by simpa using h.reverse⟩)

end Aligned

theorem Edit.aligned (h : Edit s t) : Aligned 1 s t := by
  cases h with
  | insert l r c => exact (Aligned.refl l).append ((Aligned.refl r).insert c)
  | delete l r c => exact (Aligned.refl l).append ((Aligned.refl r).delete c)
  | replace l r c d => exact (Aligned.refl l).append ((Aligned.refl r).replace c d)

theorem Edits.aligned (h : Edits n s t) : Aligned n s t := by
  induction h with
  | nil s => exact .refl s
  | cons hedit _ ih => exact (hedit.aligned.trans ih).mono (by omega)

/-- The least number of edits that turn the first text into the second. -/
def IsDistance (s t : List Char) (n : Nat) : Prop := IsLeast {k | Edits k s t} n

namespace IsDistance

theorem le_of_aligned (h : IsDistance s t m) (halign : Aligned n s t) : m ≤ n := by
  obtain ⟨k, hk, hedits⟩ := halign.exists_edits
  exact Nat.le_trans (h.2 hedits) hk

theorem nil_left (t : List Char) : IsDistance [] t t.length := by
  constructor
  · induction t with
    | nil => exact .nil []
    | cons c t ih => exact .cons (.insert [] [] c) (Edits.after_cons ih c)
  · intro n h
    simpa using Edits.length_le h

theorem symm (h : IsDistance s t n) : IsDistance t s n :=
  ⟨Edits.symm h.1, fun _ hedits => h.2 (Edits.symm hedits)⟩

theorem nil_right (s : List Char) : IsDistance s [] s.length := (nil_left s).symm

/-- The least number of edits of two texts, from the least numbers of the texts without the last
character of the one, of the other and of both. -/
theorem concat (hdelete : IsDistance s (t ++ [d]) m) (hinsert : IsDistance (s ++ [c]) t n)
    (hboth : IsDistance s t k) :
    IsDistance (s ++ [c]) (t ++ [d])
      (min (min (m + 1) (n + 1)) (k + if c = d then 0 else 1)) := by
  constructor
  · have hdeleted : Edits (m + 1) (s ++ [c]) (t ++ [d]) := by
      have hedit : Edit (s ++ [c]) s := by simpa using Edit.delete s [] c
      exact .cons hedit hdelete.1
    have hinserted : Edits (n + 1) (s ++ [c]) (t ++ [d]) := by
      have hedit : Edit t (t ++ [d]) := by simpa using Edit.insert t [] d
      exact Edits.concat hinsert.1 hedit
    have hreplaced : Edits (k + if c = d then 0 else 1) (s ++ [c]) (t ++ [d]) := by
      have hkept := Edits.before_concat hboth.1 d
      split
      · rename_i hcd
        rwa [hcd]
      · exact .cons (.replace s [] c d) hkept
    exact min_rec' (Edits · (s ++ [c]) (t ++ [d]))
      (min_rec' (Edits · (s ++ [c]) (t ++ [d])) hdeleted hinserted) hreplaced
  · intro i h
    rcases (Edits.aligned h).of_concat with ⟨j, rfl, hj⟩ | ⟨j, rfl, hj⟩ | ⟨j, rfl, hj⟩
    · have := hdelete.le_of_aligned hj
      omega
    · have := hinsert.le_of_aligned hj
      omega
    · have := hboth.le_of_aligned hj
      omega

end IsDistance

end Typestate.Text

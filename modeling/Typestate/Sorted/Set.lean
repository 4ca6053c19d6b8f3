import Typestate.Sorted.Order

/-!
# Sets in ascending order

A finite set is its strictly ascending list of members, so that equal sets are equal
values and the order in which members are listed is part of the type. The view of a set
is membership: each operation has one lemma that says which members its result has.
-/

namespace Typestate

/-- A finite set, stored as its strictly ascending list of members. -/
structure SortedSet (α : Type) [Ord α] where
  toList : List α
  ascending : toList.Pairwise fun a b => compare a b = .lt

namespace SortedSet

variable {α : Type} [Ord α]

theorem toList_injective {s t : SortedSet α} (h : s.toList = t.toList) : s = t := by
  cases s; cases t; cases h; rfl

instance [DecidableEq α] : DecidableEq (SortedSet α) := fun s t =>
  if h : s.toList = t.toList then isTrue (toList_injective h)
  else isFalse fun e => h (e ▸ rfl)

instance : Membership α (SortedSet α) := ⟨fun s a => a ∈ s.toList⟩

theorem mem_def {s : SortedSet α} {a : α} : a ∈ s ↔ a ∈ s.toList := Iff.rfl

instance [DecidableEq α] (a : α) (s : SortedSet α) : Decidable (a ∈ s) :=
  inferInstanceAs (Decidable (a ∈ s.toList))

def empty : SortedSet α := ⟨[], .nil⟩

instance : EmptyCollection (SortedSet α) := ⟨empty⟩

instance : Inhabited (SortedSet α) := ⟨empty⟩

@[simp] theorem toList_empty : (∅ : SortedSet α).toList = [] := rfl

@[simp] theorem not_mem_empty (a : α) : a ∉ (∅ : SortedSet α) := List.not_mem_nil

def singleton (a : α) : SortedSet α := ⟨[a], List.pairwise_singleton _ _⟩

@[simp] theorem mem_singleton {a b : α} : a ∈ singleton b ↔ a = b := by
  simp [mem_def, singleton]

def size (s : SortedSet α) : Nat := s.toList.length

def isEmpty (s : SortedSet α) : Bool := s.toList.isEmpty

theorem isEmpty_iff {s : SortedSet α} : s.isEmpty = true ↔ ∀ x, x ∉ s := by
  rw [isEmpty, List.isEmpty_iff, List.eq_nil_iff_forall_not_mem]
  rfl

def filter (p : α → Bool) (s : SortedSet α) : SortedSet α :=
  ⟨s.toList.filter p, s.ascending.filter p⟩

@[simp] theorem mem_filter {p : α → Bool} {s : SortedSet α} {a : α} :
    a ∈ s.filter p ↔ a ∈ s ∧ p a = true := List.mem_filter

/-- Puts `a` at its place in an ascending list, unless it is there. -/
def insertList (a : α) : List α → List α
  | [] => [a]
  | b :: bs =>
    match compare a b with
    | .lt => a :: b :: bs
    | .eq => b :: bs
    | .gt => b :: insertList a bs

section Lawful

variable [Std.LawfulEqOrd α]

theorem mem_insertList {a x : α} {l : List α} : x ∈ insertList a l ↔ x = a ∨ x ∈ l := by
  induction l with
  | nil => simp [insertList]
  | cons b bs ih =>
    cases h : compare a b with
    | lt => simp [insertList, h]
    | eq =>
      have hab : a = b := Std.LawfulEqOrd.eq_of_compare h
      subst hab
      simp [insertList]
    | gt => simp [insertList, h, ih, or_left_comm]

variable [Std.TransOrd α]

theorem pairwise_insertList {a : α} {l : List α}
    (h : l.Pairwise fun x y => compare x y = .lt) :
    (insertList a l).Pairwise fun x y => compare x y = .lt := by
  induction l with
  | nil => simp [insertList]
  | cons b bs ih =>
    have hb := List.pairwise_cons.1 h
    cases hc : compare a b with
    | lt =>
      simp only [insertList, hc]
      refine List.pairwise_cons.2 ⟨?_, h⟩
      intro y hy
      rcases List.mem_cons.1 hy with rfl | hy
      · exact hc
      · exact Std.TransCmp.lt_trans hc (hb.1 y hy)
    | eq => simpa [insertList, hc] using h
    | gt =>
      simp only [insertList, hc]
      refine List.pairwise_cons.2 ⟨?_, ih hb.2⟩
      intro y hy
      rcases mem_insertList.1 hy with rfl | hy
      · rw [Std.OrientedOrd.eq_swap, hc]; rfl
      · exact hb.1 y hy

def insert (a : α) (s : SortedSet α) : SortedSet α :=
  ⟨insertList a s.toList, pairwise_insertList s.ascending⟩

@[simp] theorem mem_insert {a x : α} {s : SortedSet α} : x ∈ s.insert a ↔ x = a ∨ x ∈ s :=
  mem_insertList

def union (s t : SortedSet α) : SortedSet α := t.toList.foldl (fun u a => u.insert a) s

theorem mem_foldl_insert {l : List α} {s : SortedSet α} {x : α} :
    x ∈ l.foldl (fun u a => u.insert a) s ↔ x ∈ s ∨ x ∈ l := by
  induction l generalizing s with
  | nil => simp
  | cons a l ih => simp [ih, or_comm, or_left_comm, or_assoc]

@[simp] theorem mem_union {s t : SortedSet α} {x : α} : x ∈ s.union t ↔ x ∈ s ∨ x ∈ t :=
  mem_foldl_insert

def ofList (l : List α) : SortedSet α := l.foldl (fun u a => u.insert a) ∅

@[simp] theorem mem_ofList {l : List α} {x : α} : x ∈ ofList l ↔ x ∈ l := by
  simp [ofList, mem_foldl_insert]

omit [Std.LawfulEqOrd α] in
theorem ext {s t : SortedSet α} (h : ∀ x, x ∈ s ↔ x ∈ t) : s = t :=
  toList_injective (eq_of_mem_iff_of_pairwise not_lt_of_lt s.ascending t.ascending h)

theorem union_self (s : SortedSet α) : s.union s = s := ext fun _ => by simp

theorem union_comm (s t : SortedSet α) : s.union t = t.union s := ext fun _ => by simp [or_comm]

end Lawful

section Decidable

variable [DecidableEq α]

def isSubset (s t : SortedSet α) : Bool := s.toList.all (· ∈ t)

theorem isSubset_iff {s t : SortedSet α} : s.isSubset t = true ↔ ∀ x ∈ s, x ∈ t := by
  simp [isSubset, mem_def]

def isDisjoint (s t : SortedSet α) : Bool := !s.toList.any (· ∈ t)

theorem isDisjoint_iff {s t : SortedSet α} : s.isDisjoint t = true ↔ ∀ x ∈ s, x ∉ t := by
  simp [isDisjoint, mem_def]

end Decidable

/-- Sets compare as their lists of members do. -/
instance : Ord (SortedSet α) := ⟨compareOn toList⟩

instance [Std.TransOrd α] : Std.TransOrd (SortedSet α) :=
  inferInstanceAs (Std.TransCmp (compareOn toList))

instance [Std.LawfulEqOrd α] : Std.LawfulEqOrd (SortedSet α) :=
  lawfulEqCmp_compareOn fun _ _ => toList_injective

end SortedSet

end Typestate

import Typestate.Sorted.Set

/-!
# Maps in ascending key order

A finite map is its list of entries with strictly ascending keys. The view of a map is
look-up by key: each operation has one lemma that says what a look-up in its result finds,
and maps with the same look-ups are equal.
-/

namespace Typestate

/-- A finite map, stored as its entries with strictly ascending keys. -/
structure SortedMap (κ : Type) (β : Type) [Ord κ] where
  entries : List (κ × β)
  ascending : entries.Pairwise fun a b => compare a.1 b.1 = .lt

namespace SortedMap

variable {κ β γ : Type}

theorem lookup_filter_ne [DecidableEq κ] {k a : κ} {l : List (κ × β)} :
    (l.filter fun e => e.1 != k).lookup a = if a = k then none else l.lookup a := by
  induction l with
  | nil => simp
  | cons e es ih =>
    obtain ⟨k', v⟩ := e
    by_cases hk : k' = k
    · subst hk
      rw [List.filter_cons_of_neg (by simp), ih, List.lookup_cons]
      by_cases ha : a = k'
      · simp [ha]
      · have : (a == k') = false := by simpa using ha
        simp [ha, this]
    · rw [List.filter_cons_of_pos (by simpa using hk), List.lookup_cons, List.lookup_cons, ih]
      by_cases ha : a = k'
      · subst ha; simp [hk]
      · have : (a == k') = false := by simpa using ha
        simp [this]

theorem lookup_map_snd [DecidableEq κ] {f : κ → β → γ} {a : κ} {l : List (κ × β)} :
    (l.map fun e => (e.1, f e.1 e.2)).lookup a = (l.lookup a).map (f a) := by
  induction l with
  | nil => rfl
  | cons e es ih =>
    obtain ⟨k, v⟩ := e
    by_cases h : a = k
    · subst h; simp
    · have : (a == k) = false := by simpa using h
      simp [List.lookup_cons, this, ih]

variable [Ord κ]

theorem entries_injective {m n : SortedMap κ β} (h : m.entries = n.entries) : m = n := by
  cases m; cases n; cases h; rfl

instance [DecidableEq κ] [DecidableEq β] : DecidableEq (SortedMap κ β) := fun m n =>
  if h : m.entries = n.entries then isTrue (entries_injective h)
  else isFalse fun e => h (e ▸ rfl)

def empty : SortedMap κ β := ⟨[], .nil⟩

instance : EmptyCollection (SortedMap κ β) := ⟨empty⟩

instance : Inhabited (SortedMap κ β) := ⟨empty⟩

@[simp] theorem entries_empty : (∅ : SortedMap κ β).entries = [] := rfl

def size (m : SortedMap κ β) : Nat := m.entries.length

def isEmpty (m : SortedMap κ β) : Bool := m.entries.isEmpty

def keys (m : SortedMap κ β) : List κ := m.entries.map (·.1)

def values (m : SortedMap κ β) : List β := m.entries.map (·.2)

def mapValues (f : κ → β → γ) (m : SortedMap κ β) : SortedMap κ γ :=
  ⟨m.entries.map fun e => (e.1, f e.1 e.2), m.ascending.map _ fun _ _ h => h⟩

def filter (p : κ → β → Bool) (m : SortedMap κ β) : SortedMap κ β :=
  ⟨m.entries.filter fun e => p e.1 e.2, m.ascending.filter _⟩

/-- Puts an entry at its place in an ascending list, over one with the same key. -/
def insertEntry (k : κ) (v : β) : List (κ × β) → List (κ × β)
  | [] => [(k, v)]
  | e :: es =>
    match compare k e.1 with
    | .lt => (k, v) :: e :: es
    | .eq => (k, v) :: es
    | .gt => e :: insertEntry k v es

section Lookup

variable [DecidableEq κ]

def get? (m : SortedMap κ β) (k : κ) : Option β := m.entries.lookup k

def contains (m : SortedMap κ β) (k : κ) : Bool := (m.get? k).isSome

def erase (k : κ) (m : SortedMap κ β) : SortedMap κ β := m.filter fun k' _ => k' != k

@[simp] theorem get?_empty (k : κ) : (∅ : SortedMap κ β).get? k = none := rfl

@[simp] theorem get?_erase {k a : κ} {m : SortedMap κ β} :
    (m.erase k).get? a = if a = k then none else m.get? a := lookup_filter_ne

@[simp] theorem get?_mapValues {f : κ → β → γ} {m : SortedMap κ β} {a : κ} :
    (m.mapValues f).get? a = (m.get? a).map (f a) := lookup_map_snd

end Lookup

theorem mem_insertEntry {k : κ} {v : β} {x : κ × β} {l : List (κ × β)} :
    x ∈ insertEntry k v l → x = (k, v) ∨ x ∈ l := by
  induction l with
  | nil => simp [insertEntry]
  | cons e es ih =>
    cases h : compare k e.1 with
    | lt => simp [insertEntry, h]
    | eq =>
      simp only [insertEntry, h, List.mem_cons]
      rintro (e | e)
      · exact .inl e
      · exact .inr (.inr e)
    | gt =>
      simp only [insertEntry, h, List.mem_cons]
      rintro (e | e)
      · exact .inr (.inl e)
      · exact (ih e).imp id .inr

section Lawful

variable [Std.TransOrd κ] [Std.LawfulEqOrd κ]

theorem pairwise_insertEntry {k : κ} {v : β} {l : List (κ × β)}
    (h : l.Pairwise fun a b => compare a.1 b.1 = .lt) :
    (insertEntry k v l).Pairwise fun a b => compare a.1 b.1 = .lt := by
  induction l with
  | nil => simp [insertEntry]
  | cons e es ih =>
    have he := List.pairwise_cons.1 h
    cases hc : compare k e.1 with
    | lt =>
      simp only [insertEntry, hc]
      refine List.pairwise_cons.2 ⟨?_, h⟩
      intro y hy
      rcases List.mem_cons.1 hy with rfl | hy
      · exact hc
      · exact Std.TransCmp.lt_trans hc (he.1 y hy)
    | eq =>
      simp only [insertEntry, hc]
      have hk : k = e.1 := Std.LawfulEqOrd.eq_of_compare hc
      exact List.pairwise_cons.2 ⟨fun y hy => hk ▸ he.1 y hy, he.2⟩
    | gt =>
      simp only [insertEntry, hc]
      refine List.pairwise_cons.2 ⟨?_, ih he.2⟩
      intro y hy
      rcases mem_insertEntry hy with rfl | hy
      · rw [Std.OrientedOrd.eq_swap, hc]; rfl
      · exact he.1 y hy

def insert (k : κ) (v : β) (m : SortedMap κ β) : SortedMap κ β :=
  ⟨insertEntry k v m.entries, pairwise_insertEntry m.ascending⟩

/-- The map of a list of entries, where a later entry wins over an earlier one. -/
def ofList (l : List (κ × β)) : SortedMap κ β := l.foldl (fun m e => m.insert e.1 e.2) ∅

variable [DecidableEq κ]

theorem lookup_insertEntry {k a : κ} {v : β} {l : List (κ × β)} :
    (insertEntry k v l).lookup a = if a = k then some v else l.lookup a := by
  induction l with
  | nil =>
    by_cases h : a = k
    · subst h; simp [insertEntry]
    · have : (a == k) = false := by simpa using h
      simp [insertEntry, List.lookup_cons, this, h]
  | cons e es ih =>
    obtain ⟨k', v'⟩ := e
    cases hc : compare k k' with
    | lt =>
      simp only [insertEntry, hc]
      by_cases h : a = k
      · subst h; simp
      · have : (a == k) = false := by simpa using h
        rw [List.lookup_cons, this, if_neg h]
    | eq =>
      have hk : k = k' := Std.LawfulEqOrd.eq_of_compare hc
      subst hk
      simp only [insertEntry, hc]
      by_cases h : a = k
      · subst h; simp
      · have : (a == k) = false := by simpa using h
        rw [List.lookup_cons, List.lookup_cons, this, if_neg h]
    | gt =>
      have hk : k ≠ k' := by
        rintro rfl
        rw [Std.compare_self] at hc
        cases hc
      simp only [insertEntry, hc, List.lookup_cons, ih]
      by_cases h : a = k'
      · subst h; simp [Ne.symm hk]
      · have : (a == k') = false := by simpa using h
        simp [this]

@[simp] theorem get?_insert {k a : κ} {v : β} {m : SortedMap κ β} :
    (m.insert k v).get? a = if a = k then some v else m.get? a := lookup_insertEntry

/-- An ascending list holds one entry per key, so a look-up finds every entry. -/
theorem mem_entries_iff {m : SortedMap κ β} {k : κ} {v : β} :
    (k, v) ∈ m.entries ↔ m.get? k = some v := by
  obtain ⟨l, hl⟩ := m
  simp only [get?]
  induction l with
  | nil => simp
  | cons e es ih =>
    obtain ⟨k', v'⟩ := e
    obtain ⟨he, hes⟩ := List.pairwise_cons.1 hl
    by_cases h : k = k'
    · subst h
      have hnot : (k, v) ∉ es := by
        intro hv
        have := he _ hv
        rw [Std.compare_self] at this
        cases this
      simp [hnot, eq_comm]
    · have hb : (k == k') = false := by simpa using h
      rw [List.mem_cons, List.lookup_cons, hb]
      simp [h, ih hes]

theorem mem_keys_iff {m : SortedMap κ β} {k : κ} : k ∈ m.keys ↔ ∃ v, m.get? k = some v := by
  simp [keys, mem_entries_iff]

theorem get?_filter {p : κ → β → Bool} {m : SortedMap κ β} {k : κ} {v : β} :
    (m.filter p).get? k = some v ↔ m.get? k = some v ∧ p k v = true := by
  rw [← mem_entries_iff, ← mem_entries_iff]
  exact List.mem_filter

/-- The map that gives each member of a set its value under a function. -/
def tabulate (f : κ → β) (s : SortedSet κ) : SortedMap κ β :=
  ⟨s.toList.map fun k => (k, f k), s.ascending.map _ fun _ _ h => h⟩

theorem mem_of_get?_ofList {l : List (κ × β)} {k : κ} {v : β} (h : (ofList l).get? k = some v) :
    (k, v) ∈ l := by
  have fold : ∀ (l : List (κ × β)) (m : SortedMap κ β),
      (l.foldl (fun m e => m.insert e.1 e.2) m).get? k = some v →
        (k, v) ∈ l ∨ m.get? k = some v := by
    intro l
    induction l with
    | nil => exact fun _ h => .inr h
    | cons e l ih =>
      intro m h
      rcases ih _ h with h | h
      · exact .inl (List.mem_cons_of_mem e h)
      · rw [get?_insert] at h
        split at h
        · rename_i hk
          exact .inl (by simp [hk, ← Option.some.inj h])
        · exact .inr h
  exact (fold l ∅ h).resolve_right (by simp)

omit [Ord κ] [Std.TransOrd κ] [Std.LawfulEqOrd κ] in
theorem lookup_map_pair {f : κ → β} {k : κ} {l : List κ} :
    (l.map fun a => (a, f a)).lookup k = if k ∈ l then some (f k) else none := by
  induction l with
  | nil => rfl
  | cons a l ih =>
    by_cases h : k = a
    · subst h; simp
    · have : (k == a) = false := by simpa using h
      simp [List.lookup_cons, this, ih, h]

omit [Std.TransOrd κ] [Std.LawfulEqOrd κ] in
@[simp] theorem get?_tabulate {f : κ → β} {s : SortedSet κ} {k : κ} :
    (tabulate f s).get? k = if k ∈ s then some (f k) else none := lookup_map_pair

/-- The keys of both maps. A key of both gets its value from `both`, a key of one of them
from `one`. -/
def merge (both : β → β → β) (one : κ → β → β) (m n : SortedMap κ β) : SortedMap κ β :=
  n.entries.foldl (fun r e => if m.contains e.1 then r else r.insert e.1 (one e.1 e.2))
    (m.mapValues fun k v =>
      match n.get? k with
      | some w => both v w
      | none => one k v)

theorem get?_foldl_insert {keep : κ → Bool} {f : κ → β → β} {l : List (κ × β)}
    (hl : l.Pairwise fun a b => compare a.1 b.1 = .lt) {r : SortedMap κ β} {k : κ} :
    (l.foldl (fun r e => if keep e.1 then r else r.insert e.1 (f e.1 e.2)) r).get? k =
      if keep k then r.get? k
      else
        match l.lookup k with
        | some v => some (f k v)
        | none => r.get? k := by
  induction l generalizing r with
  | nil => simp
  | cons e es ih =>
    obtain ⟨he, hes⟩ := List.pairwise_cons.1 hl
    obtain ⟨a, v⟩ := e
    have hnone : es.lookup a = none := by
      cases hv : es.lookup a with
      | none => rfl
      | some w =>
        have hm : (a, w) ∈ es := mem_entries_iff (m := ⟨es, hes⟩).2 hv
        have := he _ hm
        rw [Std.compare_self] at this
        cases this
    rw [List.foldl_cons, ih hes, List.lookup_cons]
    by_cases hk : keep k = true
    · simp only [hk, if_true]
      by_cases ha : keep a = true
      · simp [ha]
      · have : k ≠ a := by rintro rfl; exact ha hk
        simp [ha, this]
    · simp only [hk]
      by_cases hka : k = a
      · subst hka
        simp [hnone, hk]
      · have hb : (k == a) = false := by simpa using hka
        simp only [hb]
        cases es.lookup k with
        | some w => rfl
        | none =>
          by_cases ha : keep a = true
          · simp [ha]
          · simp [ha, hka]

theorem get?_merge {both : β → β → β} {one : κ → β → β} {m n : SortedMap κ β} {k : κ} :
    (m.merge both one n).get? k =
      match m.get? k, n.get? k with
      | some v, some w => some (both v w)
      | some v, none => some (one k v)
      | none, some w => some (one k w)
      | none, none => none := by
  rw [merge, get?_foldl_insert n.ascending, get?_mapValues]
  rw [show n.entries.lookup k = n.get? k from rfl]
  simp only [contains]
  rcases Option.eq_none_or_eq_some (m.get? k) with hm | ⟨v, hm⟩ <;>
    rcases Option.eq_none_or_eq_some (n.get? k) with hn | ⟨w, hn⟩ <;>
      simp [hm, hn]

theorem ext {m n : SortedMap κ β} (h : ∀ k, m.get? k = n.get? k) : m = n := by
  refine entries_injective (eq_of_mem_iff_of_pairwise (fun a b => not_lt_of_lt a.1 b.1)
    m.ascending n.ascending ?_)
  rintro ⟨k, v⟩
  rw [mem_entries_iff, mem_entries_iff, h k]

end Lawful

/-- The entries of a list by their places, counted from `n`. -/
def enumerateFrom (n : Nat) : List β → List (Nat × β)
  | [] => []
  | b :: l => (n, b) :: enumerateFrom (n + 1) l

theorem le_of_mem_enumerateFrom {n : Nat} {l : List β} {x : Nat × β}
    (h : x ∈ enumerateFrom n l) : n ≤ x.1 := by
  induction l generalizing n with
  | nil => cases h
  | cons b l ih =>
    rcases List.mem_cons.1 h with rfl | h
    · exact Nat.le_refl n
    · exact Nat.le_of_succ_le (ih h)

theorem pairwise_enumerateFrom {n : Nat} {l : List β} :
    (enumerateFrom n l).Pairwise fun a b => compare a.1 b.1 = .lt := by
  induction l generalizing n with
  | nil => exact .nil
  | cons b l ih =>
    exact List.pairwise_cons.2
      ⟨fun x hx => Nat.compare_eq_lt.2 (le_of_mem_enumerateFrom hx), ih⟩

def enumerate (l : List β) : SortedMap Nat β := ⟨enumerateFrom 0 l, pairwise_enumerateFrom⟩

theorem lookup_enumerateFrom {n i : Nat} {l : List β} :
    (enumerateFrom n l).lookup (n + i) = l[i]? := by
  induction l generalizing n i with
  | nil => rfl
  | cons b l ih =>
    cases i with
    | zero => simp [enumerateFrom]
    | succ i =>
      have : (n + (i + 1) == n) = false := by simp
      rw [enumerateFrom, List.lookup_cons, this]
      simpa [Nat.add_assoc, Nat.add_comm 1 i] using ih (n := n + 1) (i := i)

@[simp] theorem get?_enumerate {l : List β} {i : Nat} : (enumerate l).get? i = l[i]? := by
  have := lookup_enumerateFrom (n := 0) (i := i) (l := l)
  rwa [Nat.zero_add] at this

/-- Maps compare as their lists of entries do, each entry by its key and then its value. -/
def order [Ord β] (m n : SortedMap κ β) : Ordering :=
  List.compareLex comparePair m.entries n.entries

instance [Ord β] : Ord (SortedMap κ β) := ⟨order⟩

instance [Ord β] [Std.TransOrd κ] [Std.TransOrd β] : Std.TransOrd (SortedMap κ β) where
  eq_swap := by
    intro m n
    exact @Std.OrientedCmp.eq_swap _ (List.compareLex comparePair) _ m.entries n.entries
  isLE_trans := by
    intro m n o
    exact @Std.TransCmp.isLE_trans _ (List.compareLex comparePair) _ m.entries n.entries o.entries

instance [Ord β] [Std.LawfulEqOrd κ] [Std.LawfulEqOrd β] : Std.LawfulEqOrd (SortedMap κ β) where
  compare_self := by
    intro m
    exact @Std.ReflCmp.compare_self _ (List.compareLex comparePair) _ m.entries
  eq_of_compare := by
    intro m n h
    exact entries_injective
      (@Std.LawfulEqCmp.eq_of_compare _ (List.compareLex comparePair) _ _ _ h)

end SortedMap

end Typestate

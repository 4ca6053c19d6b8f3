import Typestate.Facts.Partition

/-!
# Laws of classes of equal expressions

To link two expressions puts them and the classes that hold them into one class and leaves
every other class alone. What follows by induction over the equalities: the classes are
disjoint, and a function that agrees on each pair is constant on each class.
-/
namespace Typestate.Partition

theorem mem_touches {a b : Expr} {c : EquivClass} :
    touches a b c = true ↔ a ∈ c ∨ b ∈ c := by
  simp [touches]

theorem mem_foldl_union {l : List EquivClass} {s : EquivClass} {x : Expr} :
    x ∈ l.foldl SortedSet.union s ↔ x ∈ s ∨ ∃ c ∈ l, x ∈ c := by
  induction l generalizing s with
  | nil => simp
  | cons d l ih => simp [ih, or_assoc]

/-- The class that linking two expressions makes. -/
def joined (p : Partition) (a b : Expr) : EquivClass :=
  (p.classes.filter (touches a b)).toList.foldl SortedSet.union (SortedSet.ofList [a, b])

theorem mem_joined {p : Partition} {a b x : Expr} :
    x ∈ p.joined a b ↔ x = a ∨ x = b ∨ ∃ c ∈ p.classes, (a ∈ c ∨ b ∈ c) ∧ x ∈ c := by
  rw [joined, mem_foldl_union]
  simp only [SortedSet.mem_ofList, List.mem_cons, List.not_mem_nil, or_false,
    ← SortedSet.mem_def, SortedSet.mem_filter, mem_touches, and_assoc, or_assoc]

theorem mem_link {p : Partition} {a b : Expr} {c : EquivClass} :
    c ∈ (p.link a b).classes ↔
      c = p.joined a b ∨ c ∈ p.classes ∧ ¬ (a ∈ c ∨ b ∈ c) := by
  change c ∈ SortedSet.insert (p.joined a b) (p.classes.filter fun c => !touches a b c) ↔ _
  rw [SortedSet.mem_insert, SortedSet.mem_filter, Bool.not_eq_true', ← Bool.not_eq_true,
    mem_touches]

/-- A property of partitions that holds of none and survives every link of a list holds of
the classes of the list. -/
theorem ofPairs_induction {P : Partition → Prop} {pairs : List (Expr × Expr)}
    (hempty : P empty) (hlink : ∀ p, P p → ∀ ab ∈ pairs, P (p.link ab.1 ab.2)) :
    P (ofPairs pairs) := by
  have fold : ∀ (l : List (Expr × Expr)) (p : Partition), P p → (∀ ab ∈ l, ab ∈ pairs) →
      P (l.foldl (fun p ab => p.link ab.1 ab.2) p) := by
    intro l
    induction l with
    | nil => exact fun p hp _ => hp
    | cons ab l ih =>
      intro p hp hl
      exact ih _ (hlink p hp ab (hl ab (by simp))) fun x hx => hl x (by simp [hx])
  exact fold pairs empty hempty fun _ h => h

/-- Two classes that share a member are one. -/
def Disjoint (p : Partition) : Prop :=
  ∀ c ∈ p.classes, ∀ d ∈ p.classes, ∀ x, x ∈ c → x ∈ d → c = d

theorem Disjoint.link {p : Partition} (h : p.Disjoint) (a b : Expr) :
    (p.link a b).Disjoint := by
  have apart : ∀ c ∈ p.classes, ¬ (a ∈ c ∨ b ∈ c) → ∀ x ∈ c, x ∉ p.joined a b := by
    intro c hc hab x hx hj
    rcases mem_joined.1 hj with rfl | rfl | ⟨d, hd, hdab, hxd⟩
    · exact hab (.inl hx)
    · exact hab (.inr hx)
    · exact hab (h c hc d hd x hx hxd ▸ hdab)
  intro c hc d hd x hxc hxd
  rcases mem_link.1 hc with rfl | ⟨hc, hca⟩ <;> rcases mem_link.1 hd with rfl | ⟨hd, hda⟩
  · rfl
  · exact absurd hxc (apart d hd hda x hxd)
  · exact absurd hxd (apart c hc hca x hxc)
  · exact h c hc d hd x hxc hxd

theorem disjoint_ofPairs (pairs : List (Expr × Expr)) : (ofPairs pairs).Disjoint :=
  ofPairs_induction (P := Disjoint) (fun _ h => absurd h (SortedSet.not_mem_empty _))
    fun _ hp ab _ => hp.link ab.1 ab.2

theorem exists_pair_of_mem {pairs : List (Expr × Expr)} {c : EquivClass}
    (hc : c ∈ (ofPairs pairs).classes) {x : Expr} (hx : x ∈ c) :
    ∃ ab ∈ pairs, x = ab.1 ∨ x = ab.2 := by
  refine ofPairs_induction (P := fun p => ∀ c ∈ p.classes, ∀ x ∈ c,
    ∃ ab ∈ pairs, x = ab.1 ∨ x = ab.2) (fun _ hc => absurd hc (SortedSet.not_mem_empty _)) ?_
    c hc x hx
  intro p hp ab hab c hc x hx
  rcases mem_link.1 hc with rfl | ⟨hc, -⟩
  · rcases mem_joined.1 hx with rfl | rfl | ⟨d, hd, -, hxd⟩
    · exact ⟨ab, hab, .inl rfl⟩
    · exact ⟨ab, hab, .inr rfl⟩
    · exact hp d hd x hxd
  · exact hp c hc x hx

theorem constant_on_class {α : Type} (f : Expr → α) {pairs : List (Expr × Expr)}
    (h : ∀ ab ∈ pairs, f ab.1 = f ab.2) :
    ∀ c ∈ (ofPairs pairs).classes, ∀ x ∈ c, ∀ y ∈ c, f x = f y := by
  refine ofPairs_induction (P := fun p => ∀ c ∈ p.classes, ∀ x ∈ c, ∀ y ∈ c, f x = f y)
    (fun _ hc => absurd hc (SortedSet.not_mem_empty _)) ?_
  intro p hp ab hab
  have key : ∀ x ∈ p.joined ab.1 ab.2, f x = f ab.1 := by
    intro x hx
    rcases mem_joined.1 hx with rfl | rfl | ⟨c, hc, ha | hb, hxc⟩
    · rfl
    · exact (h ab hab).symm
    · exact hp c hc x hxc _ ha
    · exact (hp c hc x hxc _ hb).trans (h ab hab).symm
  intro c hc x hx y hy
  rcases mem_link.1 hc with rfl | ⟨hc, -⟩
  · exact (key x hx).trans (key y hy).symm
  · exact hp c hc x hx y hy

theorem classOf_eq_some {p : Partition} {e : Expr} {c : EquivClass} (h : p.classOf e = some c) :
    c ∈ p.classes ∧ e ∈ c :=
  ⟨List.mem_of_find?_eq_some h, by simpa using List.find?_some h⟩

theorem classOf_eq_none {p : Partition} {e : Expr} (h : p.classOf e = none) :
    ∀ c ∈ p.classes, e ∉ c := by
  intro c hc
  simpa using List.find?_eq_none.1 h c hc

theorem mem_literals {c : EquivClass} {n : Int} : n ∈ literals c ↔ Expr.lit n ∈ c := by
  simp only [literals, List.mem_filterMap, ← SortedSet.mem_def, Expr.literal?_eq_some,
    exists_eq_right]

theorem length_literals_le_one_iff {c : EquivClass} :
    (literals c).length ≤ 1 ↔ ∀ m n, Expr.lit m ∈ c → Expr.lit n ∈ c → m = n := by
  have hnodup : (literals c).Pairwise (· ≠ ·) := by
    refine c.ascending.filterMap _ ?_
    rintro x y hxy m hm n hn rfl
    rw [Expr.literal?_eq_some.1 hm, Expr.literal?_eq_some.1 hn, Std.compare_self] at hxy
    cases hxy
  simp only [← mem_literals]
  rcases hl : literals c with _ | ⟨k, _ | ⟨k', l⟩⟩
  · simp
  · simp
  · rw [hl, List.pairwise_cons] at hnodup
    refine ⟨fun h => ?_, fun h => ?_⟩
    · simp at h
    · exact absurd (h k k' (by simp) (by simp)) (hnodup.1 k' (by simp))

end Typestate.Partition

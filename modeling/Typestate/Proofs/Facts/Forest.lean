import Typestate.Facts.Forest
import Typestate.Proofs.Facts.Inclusion

/-!
# Laws of classes by linked numbers

To halve a way changes no root, and to unite two numbers changes the roots of those that lead
to the greater of their roots only. So after each equality two expressions lead to one root
exactly if one class of the partition holds both, and the table lists the classes of the
partition in their order, whatever the numbers are.
-/
namespace Typestate

namespace Forest

variable {f : Forest} {i j p : Nat}

def root (f : Forest) (i : Nat) : Nat :=
  if f.parent i = i then i else f.root (f.parent i)
termination_by i
decreasing_by exact parent_lt ‹_›

theorem root_eq (f : Forest) (i : Nat) :
    f.root i = if f.parent i = i then i else f.root (f.parent i) := by
  rw [root]

theorem root_of_parent_eq (h : f.parent i = i) : f.root i = i := by
  rw [root, if_pos h]

@[simp] theorem root_parent : f.root (f.parent i) = f.root i := by
  by_cases h : f.parent i = i
  · rw [h]
  · rw [root_eq f i, if_neg h]

theorem parent_root (f : Forest) (i : Nat) : f.parent (f.root i) = f.root i := by
  induction i using Nat.strongRecOn with
  | ind i ih =>
    by_cases h : f.parent i = i
    · rw [root_of_parent_eq h, h]
    · rw [← root_parent]
      exact ih _ (parent_lt h)

theorem root_le (f : Forest) (i : Nat) : f.root i ≤ i := by
  induction i using Nat.strongRecOn with
  | ind i ih =>
    by_cases h : f.parent i = i
    · exact Nat.le_of_eq (root_of_parent_eq h)
    · rw [← root_parent]
      exact Nat.le_trans (ih _ (parent_lt h)) (f.parent_le i)

theorem parent_eq_of_size_le (h : f.size ≤ i) : f.parent i = i := by
  rw [parent, Array.getElem?_eq_none h, Option.getD_none]

@[simp] theorem size_grow : f.grow.size = f.size + 1 := Array.size_push _

@[simp] theorem parent_grow : f.grow.parent i = f.parent i := by
  unfold parent grow
  rw [Array.getElem?_push]
  split
  · rename_i h
    rw [h, Option.getD_some, Array.getElem?_eq_none (Nat.le_refl _), Option.getD_none]
    rfl
  · rfl

@[simp] theorem root_grow : f.grow.root i = f.root i := by
  induction i using Nat.strongRecOn with
  | ind i ih =>
    rw [root_eq f.grow, root_eq f, parent_grow]
    split
    · rfl
    · exact ih _ (parent_lt ‹_›)

@[simp] theorem size_redirect (h : p < i) : (f.redirect i p h).size = f.size :=
  Array.size_setIfInBounds

theorem parent_redirect (h : p < i) :
    (f.redirect i p h).parent j = if j = i ∧ i < f.size then p else f.parent j := by
  unfold parent redirect
  rw [Array.getElem?_setIfInBounds]
  by_cases hij : i = j
  · subst hij
    by_cases hi : i < f.size
    · simp [show i < f.parents.size from hi, hi]
    · simp [show ¬ i < f.parents.size from hi, hi]
  · simp [hij, Ne.symm hij]

theorem root_redirect_of_root_eq (h : p < i) (hp : f.root p = f.root i) :
    (f.redirect i p h).root j = f.root j := by
  induction j using Nat.strongRecOn with
  | ind j ih =>
    by_cases hj : j = i ∧ i < f.size
    · have hparent : (f.redirect i p h).parent j = p := by rw [parent_redirect, if_pos hj]
      obtain ⟨rfl, -⟩ := hj
      rw [root_eq (f.redirect j p h), hparent, if_neg (Nat.ne_of_lt h), ih _ h, hp]
    · have hparent : (f.redirect i p h).parent j = f.parent j := by
        rw [parent_redirect, if_neg hj]
      rw [root_eq (f.redirect i p h), root_eq f j, hparent]
      split
      · rfl
      · exact ih _ (parent_lt ‹_›)

/-- To redirect a root to another root moves what leads to the former to the latter. -/
theorem root_redirect_of_roots (h : p < i) (hi : i < f.size) (hroot : f.parent i = i)
    (hp : f.parent p = p) :
    (f.redirect i p h).root j = if f.root j = i then p else f.root j := by
  induction j using Nat.strongRecOn with
  | ind j ih =>
    by_cases hj : j = i
    · subst hj
      have hparent : (f.redirect j p h).parent j = p := by
        rw [parent_redirect, if_pos ⟨rfl, hi⟩]
      rw [root_eq (f.redirect j p h), hparent, if_neg (Nat.ne_of_lt h), ih _ h,
        root_of_parent_eq hp, if_neg (Nat.ne_of_lt h), root_of_parent_eq hroot, if_pos rfl]
    · have hparent : (f.redirect i p h).parent j = f.parent j := by
        rw [parent_redirect, if_neg fun hc => hj hc.1]
      rw [root_eq (f.redirect i p h), root_eq f j, hparent]
      split
      · rfl
      · exact ih _ (parent_lt ‹_›)

theorem find_spec (f : Forest) (i : Nat) :
    (f.find i).2 = f.root i ∧ (f.find i).1.size = f.size ∧
      ∀ j, (f.find i).1.root j = f.root j := by
  induction i using Nat.strongRecOn generalizing f with
  | ind i ih =>
    rw [find]
    split
    · rename_i h
      exact ⟨(root_of_parent_eq h).symm, rfl, fun _ => rfl⟩
    · rename_i h
      have hlt := grandparent_lt h
      have hroot : f.root (f.parent (f.parent i)) = f.root i := by
        rw [root_parent, root_parent]
      obtain ⟨hanswer, hsize, hroots⟩ := ih _ hlt (f.redirect i _ hlt)
      refine ⟨?_, hsize.trans (size_redirect hlt), fun j => ?_⟩
      · rw [hanswer, root_redirect_of_root_eq hlt hroot, hroot]
      · rw [hroots, root_redirect_of_root_eq hlt hroot]

/-- What leads to the greater of two roots leads to the lesser one afterwards. -/
theorem union_spec (f : Forest) {i j : Nat} (hi : i < f.size) (hj : j < f.size) :
    (f.union i j).size = f.size ∧ ∀ k, (f.union i j).root k =
      if f.root k = max (f.root i) (f.root j) then min (f.root i) (f.root j) else f.root k := by
  obtain ⟨ha, hsize, hroots⟩ := f.find_spec i
  obtain ⟨hb, hsize', hroots'⟩ := (f.find i).1.find_spec j
  have hroot : ∀ k, ((f.find i).1.find j).1.root k = f.root k := fun k =>
    (hroots' k).trans (hroots k)
  unfold union
  dsimp only
  rw [ha, hb, hroots]
  split
  · rename_i h
    refine ⟨hsize'.trans hsize, fun k => ?_⟩
    rw [hroot, h, Nat.max_self, Nat.min_self]
    split
    · assumption
    · rfl
  · rename_i h
    have hparent : ∀ m, m = f.root i ∨ m = f.root j →
        ((f.find i).1.find j).1.parent m = m := by
      rintro m (rfl | rfl) <;> rw [← hroot] <;> exact parent_root _ _
    have hlt : min (f.root i) (f.root j) < max (f.root i) (f.root j) := by omega
    have hbound : max (f.root i) (f.root j) < ((f.find i).1.find j).1.size := by
      rw [hsize', hsize]
      exact Nat.max_lt.2 ⟨Nat.lt_of_le_of_lt (f.root_le i) hi,
        Nat.lt_of_le_of_lt (f.root_le j) hj⟩
    have hmax := hparent (max (f.root i) (f.root j)) (by omega)
    have hmin := hparent (min (f.root i) (f.root j)) (by omega)
    refine ⟨(size_redirect _).trans (hsize'.trans hsize), fun k => ?_⟩
    rw [root_redirect_of_roots hlt hbound hmax hmin, hroot]

/-- Two numbers lead to one root afterwards if they did before, or if each led to the root of
one of those united. -/
theorem root_union_eq_iff {i j : Nat} (hi : i < f.size) (hj : j < f.size) {k l : Nat} :
    (f.union i j).root k = (f.union i j).root l ↔ f.root k = f.root l ∨
      (f.root k = f.root i ∨ f.root k = f.root j) ∧
        (f.root l = f.root i ∨ f.root l = f.root j) := by
  obtain ⟨-, hroots⟩ := f.union_spec hi hj
  rw [hroots, hroots]
  grind

end Forest

namespace Numbering

/-- Each number is one of the forest and that of one expression. -/
structure Valid (g : Numbering) : Prop where
  lt_size : ∀ {e i}, g.index.get? e = some i → i < g.forest.size
  injective : ∀ {e e' i}, g.index.get? e = some i → g.index.get? e' = some i → e = e'

def Together (g : Numbering) (x y : Expr) : Prop :=
  ∃ i j, g.index.get? x = some i ∧ g.index.get? y = some j ∧ g.forest.root i = g.forest.root j

variable {g g' : Numbering} {a b e x y : Expr} {i : Nat}

/-- The expression has the number afterwards, no other number changes and no root. -/
theorem number_spec (hg : g.Valid) (h : g.number e = (g', i)) :
    g'.Valid ∧ g'.index.get? e = some i ∧
      (∀ {x j}, g.index.get? x = some j → g'.index.get? x = some j) ∧
      ∀ x y, g'.Together x y ↔ g.Together x y ∨ x = e ∧ y = e := by
  unfold number at h
  split at h
  · rename_i j he
    cases h
    refine ⟨hg, he, id, fun x y => ⟨.inl, ?_⟩⟩
    rintro (h | ⟨rfl, rfl⟩)
    · exact h
    · exact ⟨i, i, he, he, rfl⟩
  · rename_i he
    cases h
    have hget : ∀ {x i}, (g.index.insert e g.forest.size).get? x = some i ↔
        x = e ∧ i = g.forest.size ∨ g.index.get? x = some i := by
      intro x i
      rw [SortedMap.get?_insert]
      split
      · rename_i hx
        simp [hx, he, eq_comm]
      · rename_i hx
        simp [hx]
    have hsize : g.forest.root g.forest.size = g.forest.size :=
      Forest.root_of_parent_eq (Forest.parent_eq_of_size_le (Nat.le_refl _))
    have hold : ∀ {x i}, g.index.get? x = some i → g.forest.root i ≠ g.forest.size :=
      fun hx => Nat.ne_of_lt (Nat.lt_of_le_of_lt (g.forest.root_le _) (hg.lt_size hx))
    refine ⟨⟨fun {x i} hx => ?_, fun {x y i} hx hy => ?_⟩, hget.2 (.inl ⟨rfl, rfl⟩),
      fun hx => hget.2 (.inr hx), fun x y => ?_⟩
    · rw [Forest.size_grow]
      rcases hget.1 hx with ⟨-, rfl⟩ | hx
      · exact Nat.lt_succ_self _
      · exact Nat.lt_succ_of_lt (hg.lt_size hx)
    · rcases hget.1 hx with ⟨rfl, rfl⟩ | hx' <;> rcases hget.1 hy with ⟨rfl, hi⟩ | hy'
      · rfl
      · exact absurd (hg.lt_size hy') (Nat.lt_irrefl _)
      · exact absurd (hi ▸ hg.lt_size hx') (Nat.lt_irrefl _)
      · exact hg.injective hx' hy'
    · simp only [Together, hget, Forest.root_grow]
      constructor
      · rintro ⟨i, j, ⟨rfl, rfl⟩ | hx, ⟨rfl, rfl⟩ | hy, hroot⟩
        · exact .inr ⟨rfl, rfl⟩
        · exact absurd (hroot.symm.trans hsize) (hold hy)
        · exact absurd (hroot.trans hsize) (hold hx)
        · exact .inl ⟨i, j, hx, hy, hroot⟩
      · rintro (⟨i, j, hx, hy, hroot⟩ | ⟨rfl, rfl⟩)
        · exact ⟨i, j, .inr hx, .inr hy, hroot⟩
        · exact ⟨_, _, .inl ⟨rfl, rfl⟩, .inl ⟨rfl, rfl⟩, rfl⟩

/-- What is together with one of two expressions is together once their numbers are united. -/
theorem together_union {j : Nat} (hg : g.Valid) (ha : g.index.get? a = some i)
    (hb : g.index.get? b = some j) :
    ({ g with forest := g.forest.union i j } : Numbering).Together x y ↔ g.Together x y ∨
      (g.Together x a ∨ g.Together x b) ∧ (g.Together y a ∨ g.Together y b) := by
  have hroot : ∀ {z k}, g.index.get? z = some k → ((g.Together z a ∨ g.Together z b) ↔
      g.forest.root k = g.forest.root i ∨ g.forest.root k = g.forest.root j) := by
    intro z k hz
    simp only [Together, hz, ha, hb, Option.some.injEq, exists_and_left, exists_eq_left']
  have hiff := fun k l =>
    g.forest.root_union_eq_iff (hg.lt_size ha) (hg.lt_size hb) (k := k) (l := l)
  constructor
  · rintro ⟨k, l, hx, hy, hkl⟩
    rcases (hiff k l).1 hkl with h | ⟨hk, hl⟩
    · exact .inl ⟨k, l, hx, hy, h⟩
    · exact .inr ⟨(hroot hx).2 hk, (hroot hy).2 hl⟩
  · rintro (⟨k, l, hx, hy, h⟩ | ⟨hxab, hyab⟩)
    · exact ⟨k, l, hx, hy, (hiff k l).2 (.inl h)⟩
    · obtain ⟨k, hx⟩ : ∃ k, g.index.get? x = some k := by
        rcases hxab with ⟨k, -, hx, -⟩ | ⟨k, -, hx, -⟩ <;> exact ⟨k, hx⟩
      obtain ⟨l, hy⟩ : ∃ l, g.index.get? y = some l := by
        rcases hyab with ⟨l, -, hy, -⟩ | ⟨l, -, hy, -⟩ <;> exact ⟨l, hy⟩
      exact ⟨k, l, hx, hy, (hiff k l).2 (.inr ⟨(hroot hx).1 hxab, (hroot hy).1 hyab⟩)⟩

/-- To link two expressions puts together all that is one of them or together with one. -/
theorem link_spec (hg : g.Valid) (a b : Expr) : (g.link a b).Valid ∧ ∀ x y,
    (g.link a b).Together x y ↔ g.Together x y ∨
      (x = a ∨ x = b ∨ g.Together x a ∨ g.Together x b) ∧
        (y = a ∨ y = b ∨ g.Together y a ∨ g.Together y b) := by
  rcases ha : g.number a with ⟨g₁, i⟩
  rcases hb : g₁.number b with ⟨g₂, j⟩
  obtain ⟨hvalid₁, hi, -, htogether₁⟩ := number_spec hg ha
  obtain ⟨hvalid₂, hj, hkeep, htogether₂⟩ := number_spec hvalid₁ hb
  have hi := hkeep hi
  have hlink : g.link a b = { g₂ with forest := g₂.forest.union i j } := by
    simp only [link, ha, hb]
  rw [hlink]
  refine ⟨⟨fun hx => ?_, hvalid₂.injective⟩, fun x y => ?_⟩
  · rw [(g₂.forest.union_spec (hvalid₂.lt_size hi) (hvalid₂.lt_size hj)).1]
    exact hvalid₂.lt_size hx
  · rw [together_union hvalid₂ hi hj]
    simp only [htogether₂, htogether₁]
    grind

end Numbering

def Partition.Together (p : Partition) (x y : Expr) : Prop := ∃ c ∈ p.classes, x ∈ c ∧ y ∈ c

theorem Partition.together_link {p : Partition} {a b x y : Expr} :
    (p.link a b).Together x y ↔ p.Together x y ∨
      (x = a ∨ x = b ∨ p.Together x a ∨ p.Together x b) ∧
        (y = a ∨ y = b ∨ p.Together y a ∨ p.Together y b) := by
  have hjoined : ∀ z, z ∈ p.joined a b ↔ z = a ∨ z = b ∨ p.Together z a ∨ p.Together z b := by
    intro z
    rw [mem_joined]
    grind [Together]
  rw [← hjoined, ← hjoined]
  constructor
  · rintro ⟨c, hc, hx, hy⟩
    rcases mem_link.1 hc with rfl | ⟨hc, -⟩
    · exact .inr ⟨hx, hy⟩
    · exact .inl ⟨c, hc, hx, hy⟩
  · rintro (⟨c, hc, hx, hy⟩ | ⟨hx, hy⟩)
    · by_cases h : a ∈ c ∨ b ∈ c
      · exact ⟨_, mem_link.2 (.inl rfl), mem_joined.2 (.inr (.inr ⟨c, hc, h, hx⟩)),
          mem_joined.2 (.inr (.inr ⟨c, hc, h, hy⟩))⟩
      · exact ⟨c, mem_link.2 (.inr ⟨hc, h⟩), hx, hy⟩
    · exact ⟨_, mem_link.2 (.inl rfl), hx, hy⟩

theorem Partition.Disjoint.mem_iff_together {p : Partition} (hp : p.Disjoint) {c : EquivClass}
    (hc : c ∈ p.classes) {x y : Expr} (hy : y ∈ c) : x ∈ c ↔ p.Together x y := by
  refine ⟨fun hx => ⟨c, hc, hx, hy⟩, ?_⟩
  rintro ⟨d, hd, hx, hyd⟩
  exact hp d hd c hc y hyd hy ▸ hx

theorem Partition.nonempty_of_mem_ofPairs {pairs : List (Expr × Expr)} {c : EquivClass}
    (hc : c ∈ (ofPairs pairs).classes) : ∃ x, x ∈ c := by
  refine ofPairs_induction (P := fun p => ∀ c ∈ p.classes, ∃ x, x ∈ c)
    (fun _ hc => absurd hc (SortedSet.not_mem_empty _)) (fun p hp ab _ c hc => ?_) c hc
  rcases mem_link.1 hc with rfl | ⟨hc, -⟩
  · exact ⟨ab.1, mem_joined.2 (.inl rfl)⟩
  · exact hp c hc

theorem SortedSet.compare_eq_lt_of_precedes {c d : EquivClass} {x : Expr} (hx : x ∈ c)
    (h : ∀ y ∈ d, compare x y = .lt) (hd : ∃ y, y ∈ d) : compare c d = .lt := by
  obtain ⟨l, hl⟩ := c
  obtain ⟨m, hm⟩ := d
  change List.compareLex compare l m = .lt
  cases m with
  | nil =>
    obtain ⟨y, hy⟩ := hd
    cases hy
  | cons v m =>
    cases l with
    | nil => cases hx
    | cons u l =>
      have hxv := h v List.mem_cons_self
      have huv : compare u v = .lt := by
        rcases List.mem_cons.1 hx with rfl | hx
        · exact hxv
        · exact Std.TransCmp.lt_trans ((List.pairwise_cons.1 hl).1 x hx) hxv
      rw [List.compareLex_cons_cons, huv]
      rfl

namespace Numbering

/-- Two expressions lead to one root exactly if one class of the partition holds both. -/
theorem together_ofPairs (pairs : List (Expr × Expr)) : (ofPairs pairs).Valid ∧
    ∀ x y, (ofPairs pairs).Together x y ↔ (Partition.ofPairs pairs).Together x y := by
  have fold : ∀ (l : List (Expr × Expr)) (g : Numbering) (p : Partition), g.Valid →
      (∀ x y, g.Together x y ↔ p.Together x y) →
      (l.foldl (fun g ab => g.link ab.1 ab.2) g).Valid ∧ ∀ x y,
        (l.foldl (fun g ab => g.link ab.1 ab.2) g).Together x y ↔
          (l.foldl (fun p ab => p.link ab.1 ab.2) p).Together x y := by
    intro l
    induction l with
    | nil => exact fun _ _ hg h => ⟨hg, h⟩
    | cons ab l ih =>
      intro g p hg h
      obtain ⟨hvalid, hlink⟩ := link_spec hg ab.1 ab.2
      refine ih _ _ hvalid fun x y => ?_
      rw [hlink, Partition.together_link]
      simp only [h]
  refine fold pairs _ _ ⟨nofun, nofun⟩ fun x y => ⟨?_, ?_⟩
  · rintro ⟨i, j, hx, -⟩
    cases hx
  · rintro ⟨c, hc, -⟩
    exact absurd hc (SortedSet.not_mem_empty _)

end Numbering

namespace ClassTable

/-- What a table holds after some expressions with their numbers, given the root of each
number: each root among theirs has a place, and the class there holds the expressions that lead
to it. A class that was begun earlier has a member that precedes all of a later one. -/
structure Holds (root : Nat → Nat) (entries : List (Expr × Nat)) (t : ClassTable) : Prop where
  roots : ∀ i, t.forest.root i = root i
  placed : ∀ {e i}, (e, i) ∈ entries →
    ∃ k, t.places.get? (root i) = some k ∧ t.placeOf.get? e = some k
  known : ∀ {e k}, t.placeOf.get? e = some k → ∃ i, (e, i) ∈ entries
  distinct : ∀ {r s k}, t.places.get? r = some k → t.places.get? s = some k → r = s
  members : ∀ {r k}, t.places.get? r = some k → ∃ c, t.classes[k]? = some c ∧ (∃ x, x ∈ c) ∧
    ∀ x, x ∈ c ↔ ∃ i, (x, i) ∈ entries ∧ root i = r
  begun : ∀ {k c}, t.classes[k]? = some c → ∃ r, t.places.get? r = some k
  ordered : ∀ {j k : Nat} {c d}, t.classes[j]? = some c → t.classes[k]? = some d →
    j < k → ∃ x ∈ c, ∀ y ∈ d, compare x y = .lt

variable {root : Nat → Nat} {entries : List (Expr × Nat)} {t : ClassTable}

theorem Holds.lt_size (h : t.Holds root entries) {r k : Nat} (hr : t.places.get? r = some k) :
    k < t.classes.size := by
  obtain ⟨c, hc, -⟩ := h.members hr
  exact (Array.getElem?_eq_some_iff.1 hc).1

theorem Holds.exists_root (h : t.Holds root entries) {k : Nat} {c : EquivClass}
    (hc : t.classes[k]? = some c) : ∃ r, t.places.get? r = some k ∧ (∃ x, x ∈ c) ∧
      ∀ x, x ∈ c ↔ ∃ i, (x, i) ∈ entries ∧ root i = r := by
  obtain ⟨r, hr⟩ := h.begun hc
  obtain ⟨d, hd, hne, hmem⟩ := h.members hr
  obtain rfl := Option.some.inj (hc.symm.trans hd)
  exact ⟨r, hr, hne, hmem⟩

/-- An expression that all others precede is preceded by the members of each class. -/
theorem Holds.precedes (h : t.Holds root entries) {e : Expr}
    (he : ∀ x ∈ entries, compare x.1 e = .lt) {k : Nat} {c : EquivClass}
    (hc : t.classes[k]? = some c) {x : Expr} (hx : x ∈ c) : compare x e = .lt := by
  obtain ⟨r, -, -, hmem⟩ := h.exists_root hc
  obtain ⟨i, hi, -⟩ := (hmem x).1 hx
  exact he _ hi

theorem Holds.known_insert (h : t.Holds root entries) {e x : Expr} {i k j : Nat}
    (hx : (t.placeOf.insert e k).get? x = some j) : ∃ i', (x, i') ∈ entries ++ [(e, i)] := by
  rw [SortedMap.get?_insert] at hx
  split at hx
  · rename_i hxe
    exact ⟨i, List.mem_append_right _ (hxe ▸ List.mem_singleton_self _)⟩
  · obtain ⟨i', hi'⟩ := h.known hx
    exact ⟨i', List.mem_append_left _ hi'⟩

theorem mem_append_entry {x e : Expr} {i j : Nat} :
    (x, j) ∈ entries ++ [(e, i)] ↔ (x, j) ∈ entries ∨ x = e ∧ j = i := by
  simp

theorem ne_of_precedes {e : Expr} (he : ∀ x ∈ entries, compare x.1 e = .lt) {x : Expr} {j : Nat}
    (hx : (x, j) ∈ entries) : x ≠ e := by
  rintro rfl
  have := he _ hx
  rw [Std.compare_self] at this
  cases this

theorem Holds.join (h : t.Holds root entries) {e : Expr} {i k : Nat}
    (he : ∀ x ∈ entries, compare x.1 e = .lt) (hk : t.places.get? (root i) = some k)
    {f : Forest} (hf : ∀ j, f.root j = root j) :
    ({ t with
        forest := f
        classes := t.classes.modify k (·.insert e)
        placeOf := t.placeOf.insert e k } : ClassTable).Holds root (entries ++ [(e, i)]) := by
  have hget : ∀ {j c}, (t.classes.modify k (·.insert e))[j]? = some c ↔
      (k = j ∧ ∃ d, t.classes[j]? = some d ∧ d.insert e = c) ∨ k ≠ j ∧ t.classes[j]? = some c := by
    intro j c
    rw [Array.getElem?_modify]
    split <;> simp [*]
  refine ⟨hf, fun {x j} hx => ?_, h.known_insert, h.distinct, fun {r k'} hr => ?_,
    fun {j c} hc => ?_, fun {j j' c d} hc hd hlt => ?_⟩
  · rcases mem_append_entry.1 hx with hx | ⟨rfl, rfl⟩
    · rw [SortedMap.get?_insert, if_neg (ne_of_precedes he hx)]
      exact h.placed hx
    · exact ⟨k, hk, by rw [SortedMap.get?_insert, if_pos rfl]⟩
  · obtain ⟨c, hc, ⟨y, hy⟩, hmem⟩ := h.members hr
    by_cases hkk : k = k'
    · subst hkk
      obtain rfl := h.distinct hr hk
      refine ⟨_, hget.2 (.inl ⟨rfl, c, hc, rfl⟩), ⟨y, SortedSet.mem_insert.2 (.inr hy)⟩,
        fun x => ?_⟩
      rw [SortedSet.mem_insert, hmem]
      grind
    · have hne : root i ≠ r := by
        rintro rfl
        exact hkk (Option.some.inj (hk.symm.trans hr))
      refine ⟨c, hget.2 (.inr ⟨hkk, hc⟩), ⟨y, hy⟩, fun x => ?_⟩
      rw [hmem]
      grind
  · rcases hget.1 hc with ⟨rfl, -⟩ | ⟨-, hc⟩
    · exact ⟨_, hk⟩
    · exact h.begun hc
  · have hold : ∀ {j : Nat} {c}, (t.classes.modify k (·.insert e))[j]? = some c →
        ∃ d, t.classes[j]? = some d ∧ (∀ x ∈ d, x ∈ c) ∧ ∀ x ∈ c, x = e ∨ x ∈ d := by
      intro j c hc
      rcases hget.1 hc with ⟨-, d, hd, rfl⟩ | ⟨-, hc⟩
      · exact ⟨d, hd, fun x hx => SortedSet.mem_insert.2 (.inr hx),
          fun x hx => SortedSet.mem_insert.1 hx⟩
      · exact ⟨c, hc, fun _ => id, fun _ => .inr⟩
    obtain ⟨c₀, hc₀, hsub, -⟩ := hold hc
    obtain ⟨d₀, hd₀, -, hsub'⟩ := hold hd
    obtain ⟨x, hx, hless⟩ := h.ordered hc₀ hd₀ hlt
    refine ⟨x, hsub x hx, fun y hy => ?_⟩
    rcases hsub' y hy with rfl | hy
    · exact h.precedes he hc₀ hx
    · exact hless y hy

theorem Holds.begin (h : t.Holds root entries) {e : Expr} {i : Nat}
    (he : ∀ x ∈ entries, compare x.1 e = .lt) (hnone : t.places.get? (root i) = none)
    {f : Forest} (hf : ∀ j, f.root j = root j) :
    ({ forest := f
       places := t.places.insert (root i) t.classes.size
       classes := t.classes.push (.singleton e)
       placeOf := t.placeOf.insert e t.classes.size } : ClassTable).Holds root
      (entries ++ [(e, i)]) := by
  have hplaces : ∀ {r k}, (t.places.insert (root i) t.classes.size).get? r = some k ↔
      r = root i ∧ k = t.classes.size ∨ t.places.get? r = some k := by
    intro r k
    rw [SortedMap.get?_insert]
    split
    · rename_i hr
      simp [hr, hnone, eq_comm]
    · rename_i hr
      simp [hr]
  have hget : ∀ {j : Nat} {c}, (t.classes.push (.singleton e))[j]? = some c ↔
      j = t.classes.size ∧ .singleton e = c ∨ t.classes[j]? = some c := by
    intro j c
    rw [Array.getElem?_push]
    split
    · rename_i hj
      simp [hj]
    · rename_i hj
      simp [hj]
  have hfresh : ∀ {x j}, (x, j) ∈ entries → root j ≠ root i := by
    intro x j hx hr
    obtain ⟨k, hk, -⟩ := h.placed hx
    rw [hr, hnone] at hk
    cases hk
  refine ⟨hf, fun {x j} hx => ?_, h.known_insert, fun {r s k} hr hs => ?_,
    fun {r k} hr => ?_, fun {j c} hc => ?_, fun {j j' c d} hc hd hlt => ?_⟩
  · rcases mem_append_entry.1 hx with hx | ⟨rfl, rfl⟩
    · obtain ⟨k, hk, hplace⟩ := h.placed hx
      refine ⟨k, hplaces.2 (.inr hk), ?_⟩
      rw [SortedMap.get?_insert, if_neg (ne_of_precedes he hx), hplace]
    · exact ⟨_, hplaces.2 (.inl ⟨rfl, rfl⟩), by rw [SortedMap.get?_insert, if_pos rfl]⟩
  · rcases hplaces.1 hr with ⟨rfl, rfl⟩ | hr' <;> rcases hplaces.1 hs with ⟨rfl, hk⟩ | hs'
    · rfl
    · exact absurd (h.lt_size hs') (Nat.lt_irrefl _)
    · exact absurd (hk ▸ h.lt_size hr') (Nat.lt_irrefl _)
    · exact h.distinct hr' hs'
  · rcases hplaces.1 hr with ⟨rfl, rfl⟩ | hr
    · refine ⟨_, hget.2 (.inl ⟨rfl, rfl⟩), ⟨e, SortedSet.mem_singleton.2 rfl⟩, fun x => ?_⟩
      rw [SortedSet.mem_singleton]
      grind
    · obtain ⟨c, hc, hne, hmem⟩ := h.members hr
      have hri : root i ≠ r := by
        rintro rfl
        cases hr.symm.trans hnone
      refine ⟨c, hget.2 (.inr hc), hne, fun x => ?_⟩
      rw [hmem]
      grind
  · rcases hget.1 hc with ⟨rfl, -⟩ | hc
    · exact ⟨_, hplaces.2 (.inl ⟨rfl, rfl⟩)⟩
    · obtain ⟨r, hr⟩ := h.begun hc
      exact ⟨r, hplaces.2 (.inr hr)⟩
  · have hbound : ∀ {k : Nat} {c}, t.classes[k]? = some c → k < t.classes.size := fun hc =>
      (Array.getElem?_eq_some_iff.1 hc).1
    rcases hget.1 hc with ⟨rfl, -⟩ | hc'
    · rcases hget.1 hd with ⟨rfl, -⟩ | hd
      · exact absurd hlt (Nat.lt_irrefl _)
      · exact absurd (hbound hd) (Nat.lt_asymm hlt)
    · rcases hget.1 hd with ⟨rfl, rfl⟩ | hd
      · obtain ⟨-, -, ⟨x, hx⟩, -⟩ := h.exists_root hc'
        refine ⟨x, hx, fun y hy => ?_⟩
        rw [SortedSet.mem_singleton.1 hy]
        exact h.precedes he hc' hx
      · exact h.ordered hc' hd hlt

theorem Holds.add (h : t.Holds root entries) {e : Expr} {i : Nat}
    (he : ∀ x ∈ entries, compare x.1 e = .lt) : (t.add e i).Holds root (entries ++ [(e, i)]) := by
  obtain ⟨hroot, -, hroots⟩ := t.forest.find_spec i
  rw [h.roots] at hroot
  have hroots := fun j => (hroots j).trans (h.roots j)
  unfold ClassTable.add
  dsimp only
  split
  · rename_i k hk
    exact h.join he (hroot ▸ hk) hroots
  · rename_i hk
    rw [hroot] at hk ⊢
    exact h.begin he hk hroots

variable {pairs : List (Expr × Expr)}

theorem holds_ofPairs (pairs : List (Expr × Expr)) :
    (ofPairs pairs).Holds (Numbering.ofPairs pairs).forest.root
      (Numbering.ofPairs pairs).index.entries := by
  have fold : ∀ {root : Nat → Nat} (later earlier : List (Expr × Nat)) (t : ClassTable),
      (earlier ++ later).Pairwise (fun x y => compare x.1 y.1 = .lt) → t.Holds root earlier →
      (later.foldl (fun t x => t.add x.1 x.2) t).Holds root (earlier ++ later) := by
    intro root later
    induction later with
    | nil =>
      intro earlier t _ h
      rwa [List.append_nil]
    | cons x later ih =>
      intro earlier t hasc h
      have hx : ∀ y ∈ earlier, compare y.1 x.1 = .lt := fun y hy =>
        (List.pairwise_append.1 hasc).2.2 y hy x List.mem_cons_self
      rw [List.append_cons] at hasc ⊢
      exact ih _ _ hasc (h.add hx)
  refine fold _ [] _ (Numbering.ofPairs pairs).index.ascending ?_
  exact ⟨fun _ => rfl, nofun, nofun, nofun, nofun, fun hc => by simp at hc,
    fun hc => by simp at hc⟩

theorem mem_iff_together {k : Nat} {c : EquivClass} (hc : (ofPairs pairs).classes[k]? = some c)
    {y : Expr} (hy : y ∈ c) {x : Expr} :
    x ∈ c ↔ (Partition.ofPairs pairs).Together x y := by
  obtain ⟨r, -, -, hmem⟩ := (holds_ofPairs pairs).exists_root hc
  simp only [SortedMap.mem_entries_iff] at hmem
  obtain ⟨j, hj, hjr⟩ := (hmem y).1 hy
  rw [hmem, ← (Numbering.together_ofPairs pairs).2]
  constructor
  · rintro ⟨i, hi, hir⟩
    exact ⟨i, j, hi, hj, hir.trans hjr.symm⟩
  · rintro ⟨i, j', hi, hj', hij⟩
    obtain rfl := Option.some.inj (hj.symm.trans hj')
    exact ⟨i, hi, hij.trans hjr⟩

theorem exists_class_of_placeOf {e : Expr} {k : Nat}
    (hk : (ofPairs pairs).placeOf.get? e = some k) :
    ∃ c, (ofPairs pairs).classes[k]? = some c ∧ e ∈ c := by
  have hholds := holds_ofPairs pairs
  obtain ⟨i, hi⟩ := hholds.known hk
  obtain ⟨k', hk', hplace⟩ := hholds.placed hi
  obtain rfl := Option.some.inj (hk.symm.trans hplace)
  obtain ⟨c, hc, -, hmem⟩ := hholds.members hk'
  exact ⟨c, hc, (hmem e).2 ⟨i, hi, rfl⟩⟩

theorem placeOf_of_mem {e : Expr} {k : Nat} {c : EquivClass}
    (hc : (ofPairs pairs).classes[k]? = some c) (he : e ∈ c) :
    (ofPairs pairs).placeOf.get? e = some k := by
  have hholds := holds_ofPairs pairs
  obtain ⟨r, hr, -, hmem⟩ := hholds.exists_root hc
  obtain ⟨i, hi, rfl⟩ := (hmem e).1 he
  obtain ⟨k', hk', hplace⟩ := hholds.placed hi
  obtain rfl := Option.some.inj (hr.symm.trans hk')
  exact hplace

theorem mem_classes_iff {c : EquivClass} :
    c ∈ (ofPairs pairs).classes.toList ↔ c ∈ (Partition.ofPairs pairs).classes := by
  have hdisjoint := Partition.disjoint_ofPairs pairs
  rw [Array.mem_toList_iff, Array.mem_iff_getElem?]
  constructor
  · rintro ⟨k, hk⟩
    obtain ⟨-, -, ⟨y, hy⟩, -⟩ := (holds_ofPairs pairs).exists_root hk
    obtain ⟨d, hd, hyd, -⟩ := (mem_iff_together hk hy).1 hy
    have hcd : c = d := SortedSet.ext fun x => by
      rw [mem_iff_together hk hy, hdisjoint.mem_iff_together hd hyd]
    exact hcd ▸ hd
  · intro hc
    obtain ⟨y, hy⟩ := Partition.nonempty_of_mem_ofPairs hc
    obtain ⟨i, -, hi, -, -⟩ := ((Numbering.together_ofPairs pairs).2 y y).2 ⟨c, hc, hy, hy⟩
    obtain ⟨k, -, hk⟩ := (holds_ofPairs pairs).placed (SortedMap.mem_entries_iff.2 hi)
    obtain ⟨d, hd, hyd⟩ := exists_class_of_placeOf hk
    have hdc : d = c := SortedSet.ext fun x => by
      rw [mem_iff_together hd hyd, hdisjoint.mem_iff_together hc hy]
    exact ⟨k, hdc ▸ hd⟩

/-- The table lists the classes in their order. -/
theorem classes_ofPairs (pairs : List (Expr × Expr)) :
    (ofPairs pairs).classes.toList = (Partition.ofPairs pairs).classes.toList := by
  refine eq_of_mem_iff_of_pairwise not_lt_of_lt ?_ (Partition.ofPairs pairs).classes.ascending
    fun c => mem_classes_iff
  refine List.pairwise_iff_getElem.2 fun j k hj hk hlt => ?_
  have hc : (ofPairs pairs).classes[j]? = some (ofPairs pairs).classes.toList[j] := by simp
  have hd : (ofPairs pairs).classes[k]? = some (ofPairs pairs).classes.toList[k] := by simp
  obtain ⟨x, hx, hless⟩ := (holds_ofPairs pairs).ordered hc hd hlt
  exact SortedSet.compare_eq_lt_of_precedes hx hless
    (Partition.nonempty_of_mem_ofPairs (mem_classes_iff.1 (List.getElem_mem hk)))

theorem classOf_ofPairs (e : Expr) :
    (ofPairs pairs).classOf e = (Partition.ofPairs pairs).classOf e := by
  unfold classOf
  cases hk : (ofPairs pairs).placeOf.get? e with
  | some k =>
    obtain ⟨c, hc, he⟩ := exists_class_of_placeOf hk
    rw [Option.bind_some, hc]
    refine ((Partition.disjoint_ofPairs pairs).classOf_eq (mem_classes_iff.1 ?_) he).symm
    exact Array.mem_toList_iff.2 (Array.mem_of_getElem? hc)
  | none =>
    rw [Option.bind_none]
    cases hclass : (Partition.ofPairs pairs).classOf e with
    | none => rfl
    | some c =>
      obtain ⟨hc, he⟩ := Partition.classOf_eq_some hclass
      obtain ⟨k, hk'⟩ := Array.mem_iff_getElem?.1 (Array.mem_toList_iff.1 (mem_classes_iff.2 hc))
      rw [placeOf_of_mem hk' he] at hk
      cases hk

theorem sameClass_ofPairs (a b : Expr) :
    (ofPairs pairs).sameClass a b = (Partition.ofPairs pairs).sameClass a b := by
  have hclass : ∀ e, (Partition.ofPairs pairs).classOf e =
      ((ofPairs pairs).placeOf.get? e).bind ((ofPairs pairs).classes[·]?) :=
    fun e => (classOf_ofPairs e).symm
  unfold sameClass Partition.sameClass
  rw [hclass, hclass]
  cases hi : (ofPairs pairs).placeOf.get? a with
  | none => rfl
  | some i =>
    obtain ⟨c, hc, ha⟩ := exists_class_of_placeOf hi
    cases hj : (ofPairs pairs).placeOf.get? b with
    | none =>
      rw [Option.bind_some, hc]
      rfl
    | some j =>
      obtain ⟨d, hd, -⟩ := exists_class_of_placeOf hj
      simp only [Option.bind_some, hc, hd, decide_eq_decide]
      constructor
      · rintro rfl
        exact Option.some.inj (hc.symm.trans hd)
      · rintro rfl
        exact Option.some.inj (hi.symm.trans (placeOf_of_mem hd ha))

/-- A table that lists the classes of a partition in their order, and tells of every expression
what the partition tells. -/
structure Shows (t : ClassTable) (p : Partition) : Prop where
  classes : t.classes.toList = p.classes.toList
  classOf : ∀ e, t.classOf e = p.classOf e
  sameClass : ∀ a b, t.sameClass a b = p.sameClass a b

theorem shows_ofPairs (pairs : List (Expr × Expr)) :
    (ofPairs pairs).Shows (Partition.ofPairs pairs) :=
  ⟨classes_ofPairs pairs, classOf_ofPairs, sameClass_ofPairs⟩

end ClassTable

end Typestate

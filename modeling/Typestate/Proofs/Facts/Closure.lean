import Mathlib.Logic.Relation
import Typestate.Proofs.Facts.Forest
import Typestate.Proofs.States.Classes

/-!
# Classes as the closure of equalities

The classes of a list of equalities are those of the least equivalence that has them all: two
expressions are in one class exactly if a chain of equalities connects them, each taken in
either direction. This determines the classes and how they are listed, so the order in which
the equalities are taken does not show, neither here nor in the table of linked numbers.
-/
namespace Typestate

open Relation (EqvGen)

namespace Partition

/-- The classes of a partition are those of the least equivalence with a relation, on the
expressions that the relation speaks of. -/
structure IsClosure (p : Partition) (R : Expr → Expr → Prop) : Prop where
  nonempty : ∀ c ∈ p.classes, ∃ x, x ∈ c
  disjoint : p.Disjoint
  covers : ∀ x, (∃ c ∈ p.classes, x ∈ c) ↔ ∃ y, R x y ∨ R y x
  chained : ∀ c ∈ p.classes, ∀ d ∈ p.classes, ∀ x ∈ c, ∀ y ∈ d, c = d ↔ EqvGen R x y

/-- What a chain connects is one expression or in one class, if each link of it is in one. -/
theorem Disjoint.eq_or_together {p : Partition} (hp : p.Disjoint) {R : Expr → Expr → Prop}
    (hR : ∀ x y, R x y → p.Together x y) {x y : Expr} (h : EqvGen R x y) :
    x = y ∨ p.Together x y := by
  induction h with
  | rel x y h => exact .inr (hR x y h)
  | refl x => exact .inl rfl
  | symm x y _ ih =>
    rcases ih with rfl | ⟨c, hc, hx, hy⟩
    · exact .inl rfl
    · exact .inr ⟨c, hc, hy, hx⟩
  | trans x y z _ _ ihxy ihyz =>
    rcases ihxy with rfl | ⟨c, hc, hx, hy⟩
    · exact ihyz
    · rcases ihyz with rfl | ⟨d, hd, hy', hz⟩
      · exact .inr ⟨c, hc, hx, hy⟩
      · obtain rfl := hp c hc d hd y hy hy'
        exact .inr ⟨c, hc, hx, hz⟩

theorem isClosure_ofPairs (pairs : List (Expr × Expr)) :
    (ofPairs pairs).IsClosure fun x y => (x, y) ∈ pairs where
  nonempty _ hc := nonempty_of_mem_ofPairs hc
  disjoint := disjoint_ofPairs pairs
  covers x := by
    constructor
    · rintro ⟨c, hc, hx⟩
      obtain ⟨⟨a, b⟩, hab, rfl | rfl⟩ := exists_pair_of_mem hc hx
      · exact ⟨b, .inl hab⟩
      · exact ⟨a, .inr hab⟩
    · rintro ⟨y, h | h⟩
      · obtain ⟨c, hc, hx, -⟩ := exists_class_of_pair h
        exact ⟨c, hc, hx⟩
      · obtain ⟨c, hc, -, hx⟩ := exists_class_of_pair h
        exact ⟨c, hc, hx⟩
  chained c hc d hd x hx y hy := by
    constructor
    · rintro rfl
      -- what a chain connects is one in the quotient, and the quotient is constant on classes
      exact Quot.eqvGen_exact (constant_on_class (Quot.mk _) (fun _ h => Quot.sound h) c hc x hx
        y hy)
    · intro h
      have hdisjoint := disjoint_ofPairs pairs
      rcases hdisjoint.eq_or_together (fun _ _ => exists_class_of_pair) h with
        rfl | ⟨c', hc', hxc', hyc'⟩
      · exact hdisjoint c hc d hd x hx hy
      · exact (hdisjoint c hc c' hc' x hx hxc').trans (hdisjoint c' hc' d hd y hyc' hy)

namespace IsClosure

variable {p q : Partition} {R : Expr → Expr → Prop} {x y : Expr}

theorem eqvGen_iff (h : p.IsClosure R) : EqvGen R x y ↔ x = y ∨ p.Together x y := by
  constructor
  · refine h.disjoint.eq_or_together fun x y hxy => ?_
    obtain ⟨c, hc, hx⟩ := (h.covers x).2 ⟨y, .inl hxy⟩
    obtain ⟨d, hd, hy⟩ := (h.covers y).2 ⟨x, .inr hxy⟩
    obtain rfl := (h.chained c hc d hd x hx y hy).2 (.rel _ _ hxy)
    exact ⟨c, hc, hx, hy⟩
  · rintro (rfl | ⟨c, hc, hx, hy⟩)
    · exact .refl x
    · exact (h.chained c hc c hc x hx y hy).1 rfl

theorem mem_iff (h : p.IsClosure R) {c : EquivClass} (hc : c ∈ p.classes) (hx : x ∈ c) :
    y ∈ c ↔ EqvGen R x y := by
  rw [h.eqvGen_iff]
  constructor
  · exact fun hy => .inr ⟨c, hc, hx, hy⟩
  · rintro (rfl | ⟨d, hd, hxd, hyd⟩)
    · exact hx
    · exact h.disjoint d hd c hc x hxd hx ▸ hyd

theorem subset (hp : p.IsClosure R) (hq : q.IsClosure R) {c : EquivClass} (hc : c ∈ p.classes) :
    c ∈ q.classes := by
  obtain ⟨x, hx⟩ := hp.nonempty c hc
  obtain ⟨d, hd, hxd⟩ := (hq.covers x).2 ((hp.covers x).1 ⟨c, hc, hx⟩)
  have hcd : c = d := SortedSet.ext fun y => by rw [hp.mem_iff hc hx, hq.mem_iff hd hxd]
  exact hcd ▸ hd

theorem unique (hp : p.IsClosure R) (hq : q.IsClosure R) : p = q := by
  obtain ⟨cs⟩ := p
  obtain ⟨ds⟩ := q
  congr 1
  exact SortedSet.ext fun c => ⟨hp.subset hq, hq.subset hp⟩

theorem sameClass_iff (h : p.IsClosure R) : p.sameClass x y = true ↔ EqvGen R x y := by
  rw [h.eqvGen_iff]
  unfold sameClass
  split
  · rename_i c d hx hy
    obtain ⟨hc, hxc⟩ := classOf_eq_some hx
    obtain ⟨hd, hyd⟩ := classOf_eq_some hy
    rw [decide_eq_true_iff]
    constructor
    · rintro rfl
      exact .inr ⟨c, hc, hxc, hyd⟩
    · rintro (rfl | ⟨c', hc', hxc', hyc'⟩)
      · exact h.disjoint c hc d hd x hxc hyd
      · exact (h.disjoint c hc c' hc' x hxc hxc').trans (h.disjoint c' hc' d hd y hyc' hyd)
  · rename_i hnone
    rw [decide_eq_true_iff]
    refine ⟨.inl, fun hxy => hxy.resolve_right ?_⟩
    rintro ⟨c, hc, hxc, hyc⟩
    exact hnone c c (h.disjoint.classOf_eq hc hxc) (h.disjoint.classOf_eq hc hyc)

end IsClosure

/-- The order of equalities, and how often each is listed, does not show in the classes. -/
theorem ofPairs_congr {pairs pairs' : List (Expr × Expr)} (h : ∀ ab, ab ∈ pairs ↔ ab ∈ pairs') :
    ofPairs pairs = ofPairs pairs' := by
  have hclosure := isClosure_ofPairs pairs'
  simp only [← h] at hclosure
  exact (isClosure_ofPairs pairs).unique hclosure

end Partition

namespace Facts

/-- Whether a set of facts has an equality of two expressions, in this direction. -/
def Equates (s : Facts) (x y : Expr) : Prop := ∃ f ∈ s, f.op = .eq ∧ f.left = x ∧ f.right = y

/-- Whether the equality is one of expressions other than integer literals. -/
def EquatesVars (s : Facts) (x y : Expr) : Prop :=
  s.Equates x y ∧ x.isLiteral = false ∧ y.isLiteral = false

def equalities (l : List Fact) : List (Expr × Expr) :=
  (l.filter (·.op = .eq)).map fun f => (f.left, f.right)

/-- The equalities of a list of facts between expressions other than integer literals. -/
def varEqualities (l : List Fact) : List (Expr × Expr) :=
  (l.filter fun f => f.op = .eq && !f.left.isLiteral && !f.right.isLiteral).map fun f =>
    (f.left, f.right)

variable {s : Facts} {l : List Fact} {x y : Expr}

theorem mem_equalities (h : ∀ f, f ∈ l ↔ f ∈ s) : (x, y) ∈ equalities l ↔ s.Equates x y := by
  simp [equalities, Equates, h, and_assoc]

theorem mem_varEqualities (h : ∀ f, f ∈ l ↔ f ∈ s) :
    (x, y) ∈ varEqualities l ↔ s.EquatesVars x y := by
  simp only [varEqualities, EquatesVars, Equates, List.mem_map, List.mem_filter, h,
    Bool.and_eq_true, Bool.not_eq_true', decide_eq_true_eq, Prod.mk.injEq]
  constructor
  · rintro ⟨f, ⟨hf, ⟨hop, hl⟩, hr⟩, rfl, rfl⟩
    exact ⟨⟨f, hf, hop, rfl, rfl⟩, hl, hr⟩
  · rintro ⟨⟨f, hf, hop, rfl, rfl⟩, hl, hr⟩
    exact ⟨f, ⟨hf, ⟨hop, hl⟩, hr⟩, rfl, rfl⟩

theorem isClosure_classes (s : Facts) : s.classes.IsClosure s.Equates := by
  have h := Partition.isClosure_ofPairs (equalities s.toList)
  simp only [mem_equalities fun _ => mem_toList] at h
  exact h

theorem isClosure_varClasses (s : Facts) : s.varClasses.IsClosure s.EquatesVars := by
  have h := Partition.isClosure_ofPairs (varEqualities s.toList)
  simp only [mem_varEqualities fun _ => mem_toList] at h
  exact h

/-- The table of the equalities of a set of facts, in whatever order, shows the classes. -/
theorem shows_classes (h : ∀ f, f ∈ l ↔ f ∈ s) :
    (ClassTable.ofPairs (equalities l)).Shows s.classes := by
  have hpairs : Partition.ofPairs (equalities l) = .ofPairs (equalities s.toList) :=
    Partition.ofPairs_congr fun ⟨x, y⟩ =>
      (mem_equalities h).trans (mem_equalities fun _ => mem_toList).symm
  have hshows := ClassTable.shows_ofPairs (equalities l)
  rw [hpairs] at hshows
  exact hshows

theorem shows_varClasses (h : ∀ f, f ∈ l ↔ f ∈ s) :
    (ClassTable.ofPairs (varEqualities l)).Shows s.varClasses := by
  have hpairs : Partition.ofPairs (varEqualities l) = .ofPairs (varEqualities s.toList) :=
    Partition.ofPairs_congr fun ⟨x, y⟩ =>
      (mem_varEqualities h).trans (mem_varEqualities fun _ => mem_toList).symm
  have hshows := ClassTable.shows_ofPairs (varEqualities l)
  rw [hpairs] at hshows
  exact hshows

end Facts

theorem Decl.accepts_iff {d : Decl} {e : Expr} :
    d.accepts e = true ↔ (d.kind = .anyPointer → e.ty = .pointer) := by
  unfold Decl.accepts
  cases d.kind <;> simp

namespace Program

variable {p : Program} {d : Decl}

/-- The tracked expressions in scope at a node: those of its function, and the globals. -/
def trackedAt (p : Program) (d : Decl) (n : NodeId) : List Expr :=
  ((p.functionOf n).elim [] fun f => (p.tracked d f).toList) ++ p.trackedGlobals d

/-- The expressions whose states are tracked at a node: variables that its function declares,
temporaries apart, variables of functions and versions of them that its function's statements
mention, and globals, each with the type that the declaration asks for. -/
inductive TracksAt (p : Program) (d : Decl) (n : NodeId) : Expr → Prop
  | declared {f : Function} {x : Variable} : p.functionOf n = some f → x ∈ f.params ++ f.locals →
      x.storage ≠ .temporary → (d.kind = .anyPointer → x.ty = .pointer) → p.TracksAt d n (.var x)
  | mentioned {f : Function} {node : Node} {stmt : Statement} {e : Expr} {x : Variable} :
      p.functionOf n = some f → node ∈ p.nodes → node.function = some f.id →
      node.stmt = some stmt → e ∈ stmt.subexprs → e.asVariable = some x → x.owner.isSome →
      (d.kind = .anyPointer → e.ty = .pointer) → p.TracksAt d n e
  | global {x : Variable} : x ∈ p.globals → (d.kind = .anyPointer → x.ty = .pointer) →
      p.TracksAt d n (.var x)

theorem mem_declaredTracked {f : Function} {e : Expr} : e ∈ f.declaredTracked d ↔
    ∃ x ∈ f.params ++ f.locals, x.storage ≠ .temporary ∧
      (d.kind = .anyPointer → x.ty = .pointer) ∧ e = .var x := by
  simp only [Function.declaredTracked, List.mem_filter, List.mem_map, Expr.simplify,
    Decl.accepts_iff, decide_eq_true_eq]
  constructor
  · rintro ⟨⟨x, ⟨hx, hstorage⟩, rfl⟩, htype⟩
    exact ⟨x, hx, hstorage, htype, rfl⟩
  · rintro ⟨x, hx, hstorage, htype, rfl⟩
    exact ⟨⟨x, ⟨hx, hstorage⟩, rfl⟩, htype⟩

theorem mem_mentionedTracked {f : FunctionId} {e : Expr} : e ∈ p.mentionedTracked d f ↔
    ∃ node ∈ p.nodes, node.function = some f ∧ ∃ stmt, node.stmt = some stmt ∧ e ∈ stmt.subexprs ∧
      (∃ x, e.asVariable = some x ∧ x.owner.isSome) ∧ (d.kind = .anyPointer → e.ty = .pointer) := by
  simp only [mentionedTracked, List.mem_flatMap, List.mem_filter, Array.mem_toList_iff,
    decide_eq_true_eq, Bool.and_eq_true, Option.any_eq_true, Decl.accepts_iff]
  constructor
  · rintro ⟨node, ⟨hnode, hf⟩, he, hx, htype⟩
    cases hstmt : node.stmt with
    | none => simp [hstmt] at he
    | some stmt =>
      rw [hstmt] at he
      exact ⟨node, hnode, hf, stmt, hstmt, he, hx, htype⟩
  · rintro ⟨node, hnode, hf, stmt, hstmt, he, hx, htype⟩
    exact ⟨node, ⟨hnode, hf⟩, by simpa [hstmt] using he, hx, htype⟩

theorem mem_trackedGlobals {e : Expr} : e ∈ p.trackedGlobals d ↔
    ∃ x ∈ p.globals, (d.kind = .anyPointer → x.ty = .pointer) ∧ e = .var x := by
  simp only [trackedGlobals, List.mem_filter, List.mem_map, Decl.accepts_iff]
  constructor
  · rintro ⟨⟨x, hx, rfl⟩, htype⟩
    exact ⟨x, hx, htype, rfl⟩
  · rintro ⟨x, hx, htype, rfl⟩
    exact ⟨⟨x, hx, rfl⟩, htype⟩

theorem mem_trackedAt {n : NodeId} {e : Expr} : e ∈ p.trackedAt d n ↔ p.TracksAt d n e := by
  constructor
  · intro he
    rcases List.mem_append.1 he with he | he
    · cases hf : p.functionOf n with
      | none => simp [hf] at he
      | some f =>
        rw [hf] at he
        rcases List.mem_append.1 (SortedSet.mem_ofList.1 he) with he | he
        · obtain ⟨x, hx, hstorage, htype, rfl⟩ := mem_declaredTracked.1 he
          exact .declared hf hx hstorage htype
        · obtain ⟨node, hnode, hfun, stmt, hstmt, he, ⟨x, hx, howner⟩, htype⟩ :=
            mem_mentionedTracked.1 he
          exact .mentioned hf hnode hfun hstmt he hx howner htype
    · obtain ⟨x, hx, htype, rfl⟩ := mem_trackedGlobals.1 he
      exact .global hx htype
  · intro h
    have hown : ∀ {f}, p.functionOf n = some f →
        e ∈ f.declaredTracked d ++ p.mentionedTracked d f.id → e ∈ p.trackedAt d n := by
      intro f hf he
      refine List.mem_append.2 (.inl ?_)
      rw [hf]
      exact SortedSet.mem_ofList.2 he
    cases h with
    | declared hf hx hstorage htype =>
      exact hown hf (List.mem_append.2 (.inl (mem_declaredTracked.2 ⟨_, hx, hstorage, htype, rfl⟩)))
    | mentioned hf hnode hfun hstmt he hx howner htype =>
      exact hown hf (List.mem_append.2 (.inr (mem_mentionedTracked.2
        ⟨_, hnode, hfun, _, hstmt, he, ⟨_, hx, howner⟩, htype⟩)))
    | global hx htype => exact List.mem_append.2 (.inr (mem_trackedGlobals.2 ⟨_, hx, htype, rfl⟩))

theorem TracksAt.isCanonical {n : NodeId} {e : Expr} (h : p.TracksAt d n e) : e.IsCanonical := by
  cases h with
  | declared => trivial
  | mentioned _ _ _ _ he =>
    obtain ⟨x, -, hex⟩ := List.mem_flatMap.1 he
    exact Expr.isCanonical_of_mem_subexprs x.isCanonical_simplify hex
  | global => trivial

end Program

namespace StatesContext

variable {p : Program} {a : Automaton} {facts : FactsSolution} {s : Facts} {n : NodeId}

/-- The classes at a node are those of the tracked expressions in scope there. -/
theorem classesAt_eq (hn : n < p.nodes.size) (hs : facts.value n = some s) :
    (StatesContext.of p a facts).classesAt n = s.varClassesOf (p.trackedAt a.stateful n) := by
  simp only [classesAt, StatesContext.of, Array.getElem?_map, Array.getElem?_range, hn, if_true,
    Option.map_some, Option.getD_some, hs, Program.trackedAt, Program.functionOf]
  congr 2
  cases p.functionIdOf n with
  | none => rfl
  | some i => cases h : p.functions[i]? <;> simp [h]

theorem exists_class_of_tracksAt (hn : n < p.nodes.size) (hs : facts.value n = some s)
    {e : Expr} (he : p.TracksAt a.stateful n e) :
    ∃ c ∈ (StatesContext.of p a facts).classesAt n, e ∈ c := by
  rw [classesAt_eq hn hs]
  obtain ⟨c, hc, hec⟩ := Facts.exists_mem_varClassesOf (s := s) (Program.mem_trackedAt.2 he)
  rw [Expr.simplify_of_isCanonical he.isCanonical] at hec
  exact ⟨c, hc, hec⟩

end StatesContext

/-- The classes of a set of facts are the closure of its equalities, with literals and without,
and a table shows them whatever the order in which the facts are taken; the classes at a node with
these facts are disjoint and hold every tracked expression in scope there. -/
theorem Facts.classes_are_closures (s : Facts) :
    s.classes.IsClosure s.Equates ∧ s.varClasses.IsClosure s.EquatesVars ∧
      (∀ l : List Fact, (∀ f, f ∈ l ↔ f ∈ s) →
        (ClassTable.ofPairs (equalities l)).Shows s.classes ∧
        (ClassTable.ofPairs (varEqualities l)).Shows s.varClasses) ∧
      ∀ (p : Program) (a : Automaton) (facts : FactsSolution) (n : NodeId),
        n < p.nodes.size → facts.value n = some s →
        (∀ c ∈ (StatesContext.of p a facts).classesAt n,
          ∀ d ∈ (StatesContext.of p a facts).classesAt n, ∀ e, e ∈ c → e ∈ d → c = d) ∧
        ∀ e, p.TracksAt a.stateful n e →
          ∃ c ∈ (StatesContext.of p a facts).classesAt n, e ∈ c := by
  refine ⟨isClosure_classes s, isClosure_varClasses s, fun l hl => ?_, fun p a facts n hn hs => ?_⟩
  · exact ⟨shows_classes hl, shows_varClasses hl⟩
  · exact ⟨fun c hc d hd e hec hed => StatesContext.disjoint_classesAt_of hc hd hec hed,
      fun e he => StatesContext.exists_class_of_tracksAt hn hs he⟩

def chained (name : String) : Expr := .var ⟨name, some 0, .localVar, .pointer⟩

/-- The program `x = y; z = y;` with locals `x`, `y` and `z`. -/
def chaining : Program :=
  let node (kind : NodeKind) (stmt : Option Statement) : Node := ⟨some 0, kind, stmt, none⟩
  { nodes := #[⟨none, .root, none, none⟩, node .entry none, node .exit none,
      node .statement (some (.assign (chained "x") (.use (chained "y")))),
      node .statement (some (.assign (chained "z") (.use (chained "y"))))]
    edges := #[⟨1, 3, .flow .always⟩, ⟨3, 4, .flow .always⟩, ⟨4, 2, .flow .always⟩, ⟨0, 1, .root⟩]
    functions := #[⟨0, "f", [], [⟨"x", some 0, .localVar, .pointer⟩,
      ⟨"y", some 0, .localVar, .pointer⟩, ⟨"z", some 0, .localVar, .pointer⟩], 1, 2, none, none,
      none⟩]
    globals := [] }

def pointers : Automaton :=
  let ptr : Decl := ⟨"ptr", .anyPointer, true, none⟩
  Machine.automaton ⟨"pointers", [.decl ptr]⟩ ptr

/-- At the end of `chaining` the three locals are one class, also if the last fact is taken
first. -/
theorem Facts.classes_are_closures_chaining : ∃ sol s,
    chaining.factsProblem.solve "facts" 100 = .ok sol ∧ 2 < chaining.nodes.size ∧
      sol.value 2 = some s ∧ (∀ f, f ∈ s.toList.reverse ↔ f ∈ s) ∧ s.toList.reverse ≠ s.toList ∧
      (ClassTable.ofPairs (equalities s.toList.reverse)).classes.toList =
        [.ofList [chained "x", chained "y", chained "z"]] ∧
      ∃ c ∈ (StatesContext.of chaining pointers sol).classesAt 2, chained "x" ∈ c := by
  obtain ⟨sol, hsol, htest⟩ := exists_eq_ok_of_any (chaining.factsProblem.solve "facts" 100)
    (fun sol => (sol.value 2).any fun s : Facts => decide (s.toList.reverse ≠ s.toList) &&
      decide (s.classes.classes.toList = [.ofList [chained "x", chained "y", chained "z"]]))
    (by decide +kernel)
  obtain ⟨s, hs, htest⟩ := (Option.any_eq_true _ _).1 htest
  simp only [Bool.and_eq_true, decide_eq_true_eq] at htest
  obtain ⟨-, -, horder, hclasses⟩ := classes_are_closures s
  have hreverse : ∀ f, f ∈ s.toList.reverse ↔ f ∈ s := fun f => List.mem_reverse
  have hsize : 2 < chaining.nodes.size := by decide
  have htracks : chaining.TracksAt pointers.stateful 2 (chained "x") :=
    .declared rfl (List.mem_cons_self) (by decide) (by decide)
  exact ⟨sol, s, hsol, hsize, hs, hreverse, htest.1, (horder _ hreverse).1.classes.trans htest.2,
    (hclasses chaining pointers sol 2 hsize hs).2 _ htracks⟩

end Typestate

import Typestate.Match.Leaks
import Typestate.Proofs.Analysis
import Typestate.Proofs.Facts.Monotone

/-!
# Locals that escape

A local leaks at the exit of its function if the facts tie it neither to the returned value nor
to storage that outlives the function. These are the facts before the statement on the edge into
the exit. The statement gives a leaking local a tie only by an equality of its own, which puts
the local into one class with something that is tied.
-/
namespace Typestate

/-- Whether a fact is an equality between expressions other than literals. -/
def Fact.Glues (g : Fact) : Prop :=
  g.op = .eq ∧ g.left.isLiteral = false ∧ g.right.isLiteral = false

namespace Facts

variable {s t : Facts} {f : FunctionId} {returned : Option Expr} {x y : Expr}

/-- Whether the facts tie an expression to the returned value or to storage that outlives the
function. -/
def ties (s : Facts) (f : FunctionId) (returned : Option Expr) (x : Expr) : Bool :=
  decide (x ∈ (returned.map s.varAliases).getD ∅) || s.isReferencedOutside x f

theorem ties_iff : s.ties f returned x = true ↔
    (∃ r, returned = some r ∧ x ∈ s.varAliases r) ∨ ∃ y ∈ s.varAliases x, outlives f y = true := by
  simp only [ties, isReferencedOutside, Bool.or_eq_true, decide_eq_true_eq, List.any_eq_true]
  refine or_congr ?_ Iff.rfl
  cases returned with
  | none => simp
  | some r => simp

theorem mem_varPairs {ab : Expr × Expr} :
    ab ∈ (s.toList.filter fun g => g.op = .eq && !g.left.isLiteral && !g.right.isLiteral).map
      (fun g => (g.left, g.right)) ↔ ∃ g ∈ s, g.Glues ∧ (g.left, g.right) = ab := by
  simp only [List.mem_map, List.mem_filter, mem_toList, Bool.and_eq_true, decide_eq_true_eq,
    Bool.not_eq_true', Fact.Glues, and_assoc]

theorem disjoint_varClasses (s : Facts) : s.varClasses.Disjoint := Partition.disjoint_ofPairs _

theorem exists_varClass_of_glues {g : Fact} (hg : g ∈ s) (h : g.Glues) :
    ∃ c ∈ s.varClasses.classes, g.left ∈ c ∧ g.right ∈ c :=
  Partition.exists_class_of_pair (mem_varPairs.2 ⟨g, hg, h, rfl⟩)

theorem isCanonical_of_mem_varClass {c : EquivClass} (hc : c ∈ s.varClasses.classes)
    (hx : x ∈ c) : x.IsCanonical := by
  obtain ⟨ab, hab, h⟩ := Partition.exists_pair_of_mem hc hx
  obtain ⟨g, -, -, rfl⟩ := mem_varPairs.1 hab
  rcases h with rfl | rfl
  · exact g.left_canonical
  · exact g.right_canonical

theorem varAliases_of_mem_varClass {c : EquivClass} (hc : c ∈ s.varClasses.classes)
    (hx : x ∈ c) : s.varAliases x = c := by
  rw [varAliases, Expr.simplify_of_isCanonical (isCanonical_of_mem_varClass hc hx),
    (disjoint_varClasses s).classOf_eq hc hx, Option.getD_some]

theorem varAliases_cases (s : Facts) (x : Expr) :
    s.varAliases x ∈ s.varClasses.classes ∧ x.simplify ∈ s.varAliases x ∨
      s.varAliases x = .singleton x.simplify ∧ ∀ c ∈ s.varClasses.classes, x.simplify ∉ c := by
  unfold varAliases
  cases h : s.varClasses.classOf x.simplify with
  | none => exact .inr ⟨rfl, Partition.classOf_eq_none h⟩
  | some c => exact .inl (Partition.classOf_eq_some h)

theorem simplify_mem_varAliases (s : Facts) (x : Expr) : x.simplify ∈ s.varAliases x := by
  rcases s.varAliases_cases x with ⟨-, hx⟩ | ⟨h, -⟩
  · exact hx
  · rw [h]
    exact SortedSet.mem_singleton.2 rfl

theorem isCanonical_of_mem_varAliases (h : y ∈ s.varAliases x) : y.IsCanonical := by
  rcases s.varAliases_cases x with ⟨hc, -⟩ | ⟨hc, -⟩
  · exact isCanonical_of_mem_varClass hc h
  · rw [hc] at h
    rw [SortedSet.mem_singleton.1 h]
    exact x.isCanonical_simplify

theorem varAliases_simplify (s : Facts) (x : Expr) : s.varAliases x.simplify = s.varAliases x := by
  rw [varAliases, Expr.simplify_of_isCanonical x.isCanonical_simplify, varAliases]

theorem varAliases_eq (h : y ∈ s.varAliases x) : s.varAliases y = s.varAliases x := by
  rcases s.varAliases_cases x with ⟨hc, -⟩ | ⟨hc, -⟩
  · exact varAliases_of_mem_varClass hc h
  · rw [hc] at h
    rw [SortedSet.mem_singleton.1 h, varAliases_simplify]

theorem mem_varAliases_comm (hx : x.IsCanonical) (hy : y.IsCanonical) :
    y ∈ s.varAliases x ↔ x ∈ s.varAliases y := by
  have half : ∀ {x y : Expr}, x.IsCanonical → y ∈ s.varAliases x → x ∈ s.varAliases y := by
    intro x y hx h
    rw [varAliases_eq h]
    simpa [Expr.simplify_of_isCanonical hx] using s.simplify_mem_varAliases x
  exact ⟨half hx, half hy⟩

theorem ties_iff_of_isCanonical (hx : x.IsCanonical) : s.ties f returned x = true ↔
    (∃ r, returned = some r ∧ r.simplify ∈ s.varAliases x) ∨
      ∃ y ∈ s.varAliases x, outlives f y = true := by
  have hr : ∀ r : Expr, x ∈ s.varAliases r ↔ r.simplify ∈ s.varAliases x := by
    intro r
    rw [← varAliases_simplify, mem_varAliases_comm r.isCanonical_simplify hx]
  simp only [ties_iff, hr]

theorem ties_congr (hx : x.IsCanonical) (h : y ∈ s.varAliases x) :
    s.ties f returned y = s.ties f returned x := by
  rw [Bool.eq_iff_iff, ties_iff_of_isCanonical hx,
    ties_iff_of_isCanonical (isCanonical_of_mem_varAliases h), varAliases_eq h]

/-- An expression has no more aliases than before if the equalities of its aliases were known. -/
theorem varAliases_subset (h : ∀ g ∈ t, g.Glues → g.left ∈ t.varAliases x → g ∈ s) :
    ∀ y ∈ t.varAliases x, y ∈ s.varAliases x := by
  intro y hy
  rcases t.varAliases_cases x with ⟨hc, hx⟩ | ⟨hc, -⟩
  · let aliasesIn (z : Expr) : EquivClass := if z ∈ t.varAliases x then s.varAliases z else ∅
    have hpair : ∀ g ∈ t, g.Glues → aliasesIn g.left = aliasesIn g.right := by
      intro g hg hglues
      obtain ⟨c, hcg, hleft, hright⟩ := exists_varClass_of_glues hg hglues
      have hiff : g.left ∈ t.varAliases x ↔ g.right ∈ t.varAliases x := by
        constructor <;> intro hmem
        · exact (disjoint_varClasses t) _ hcg _ hc _ hleft hmem ▸ hright
        · exact (disjoint_varClasses t) _ hcg _ hc _ hright hmem ▸ hleft
      by_cases hmem : g.left ∈ t.varAliases x
      · obtain ⟨d, hd, hleft, hright⟩ := exists_varClass_of_glues (h g hg hglues hmem) hglues
        simp only [aliasesIn, if_pos hmem, if_pos (hiff.1 hmem),
          varAliases_of_mem_varClass hd hleft, varAliases_of_mem_varClass hd hright]
      · simp only [aliasesIn, if_neg hmem, if_neg (hiff.not.1 hmem)]
    have heq : aliasesIn y = aliasesIn x.simplify := by
      refine Partition.constant_on_class aliasesIn (fun ab hab => ?_) _ hc y hy _ hx
      obtain ⟨g, hg, hglues, rfl⟩ := mem_varPairs.1 hab
      exact hpair g hg hglues
    simp only [aliasesIn, if_pos hy, if_pos hx, varAliases_simplify] at heq
    rw [← heq]
    simpa [Expr.simplify_of_isCanonical (isCanonical_of_mem_varAliases hy)] using
      s.simplify_mem_varAliases y
  · rw [hc] at hy
    rw [SortedSet.mem_singleton.1 hy]
    exact s.simplify_mem_varAliases x

theorem exists_glues_of_ties (hx : x.IsCanonical) (hs : s.ties f returned x = false)
    (ht : t.ties f returned x = true) :
    ∃ g ∈ t, g.Glues ∧ g.left ∈ t.varAliases x ∧ g ∉ s := by
  by_contra hno
  have hsub : ∀ y ∈ t.varAliases x, y ∈ s.varAliases x := by
    refine varAliases_subset fun g hg hglues hmem => ?_
    by_contra hgs
    exact hno ⟨g, hg, hglues, hmem, hgs⟩
  refine Bool.eq_false_iff.1 hs ?_
  rw [ties_iff_of_isCanonical hx] at ht ⊢
  rcases ht with ⟨r, hr, hmem⟩ | ⟨y, hy, hout⟩
  · exact .inl ⟨r, hr, hsub _ hmem⟩
  · exact .inr ⟨y, hsub y hy, hout⟩

end Facts

/-- The two expressions that are equal after a statement on an edge of a kind, in canonical form. -/
def Statement.equated? (kind : EdgeKind) : Statement → Option (Expr × Expr)
  | assign target (.use value) | assign target (.unary .cast value) | phi target value =>
    some (target.simplify, value.simplify)
  | cond a op b => do
    let value ← kind.branch?
    if (if value then op else op.negate) = .eq then some (a.simplify, b.simplify) else none
  | _ => none

namespace Facts

variable {s : Facts} {g : Fact} {kind : EdgeKind} {stmt : Statement}

theorem not_glues_of_lit {a : Expr} {op : Comparison} {n : Int} :
    ¬ (Fact.of a op (.lit n)).Glues := by
  rintro ⟨-, -, hlit⟩
  unfold Fact.of at hlit
  split at hlit
  · rename_i h
    exact Bool.eq_false_iff.1 hlit h.1
  · cases hlit

theorem of_of_glues {a b : Expr} {op : Comparison} (h : (Fact.of a op b).Glues) :
    op = .eq ∧ (Fact.of a op b).left = a.simplify ∧ (Fact.of a op b).right = b.simplify := by
  unfold Fact.Glues at h
  unfold Fact.of at h ⊢
  split
  · rename_i hlit
    rw [dif_pos hlit] at h
    exact absurd hlit.1 (Bool.eq_false_iff.1 h.2.2)
  · rename_i hlit
    rw [dif_neg hlit] at h
    exact ⟨h.1, rfl, rfl⟩

theorem eq_sides_of_eq_of {a b : Expr} {op : Comparison} (h : g.Glues) (heq : g = Fact.of a op b) :
    op = .eq ∧ (a.simplify, b.simplify) = (g.left, g.right) := by
  subst heq
  obtain ⟨hop, hleft, hright⟩ := of_of_glues h
  exact ⟨hop, by rw [hleft, hright]⟩

/-- A statement adds no equality of variables but that of its own expressions. -/
theorem mem_or_equated_of_mem_afterStatement (hg : g ∈ s.afterStatement kind stmt)
    (h : g.Glues) : g ∈ s ∨ stmt.equated? kind = some (g.left, g.right) := by
  refine (mem_or_adds_of_mem_afterStatement hg).imp_right fun hadds => ?_
  have hsides : ∀ {a b : Expr}, g = Fact.of a.simplify .eq b.simplify →
      some (a.simplify, b.simplify) = some (g.left, g.right) := by
    intro a b heq
    have hsides := (eq_sides_of_eq_of h heq).2
    rw [Expr.simplify_of_isCanonical a.isCanonical_simplify,
      Expr.simplify_of_isCanonical b.isCanonical_simplify] at hsides
    exact congrArg some hsides
  cases hadds with
  | use | cast | phi => exact hsides rfl
  | branch hbranch =>
    obtain ⟨hop, hsides⟩ := eq_sides_of_eq_of h rfl
    simp [Statement.equated?, hbranch, hop, hsides]
  | number | label => exact absurd h not_glues_of_lit

end Facts

namespace Program

variable {p : Program} {d : Decl} {facts : NodeId → Option Facts} {e : EdgeId} {edge : Edge}
  {f : Function} {s t : Facts} {x : Expr}

theorem mem_leaksAt : x ∈ p.leaksAt d facts e ↔
    ∃ edge node f s, p.edges[e]? = some edge ∧ p.nodes[edge.target]? = some node ∧
      node.kind = .exit ∧ p.functionOf edge.target = some f ∧ facts edge.source = some s ∧
      x ∈ f.acceptedLocals d ∧ s.ties f.id (p.returnedAt f edge.source) x = false := by
  unfold leaksAt
  constructor
  · intro hx
    split at hx
    · cases hx
    · rename_i edge hedge
      split at hx
      · rename_i owner stmt location f s hnode hf hs
        obtain ⟨hlocal, htest⟩ := List.mem_filter.1 hx
        refine ⟨edge, _, f, s, hedge, hnode, rfl, hf, hs, hlocal, ?_⟩
        simpa [Facts.ties] using htest
      · cases hx
  · rintro ⟨edge, ⟨owner, kind, stmt, location⟩, f, s, hedge, hnode, rfl, hf, hs, hlocal, hties⟩
    simp only [hedge, hnode, hf, hs]
    refine List.mem_filter.2 ⟨hlocal, ?_⟩
    simpa [Facts.ties] using hties

theorem isCanonical_of_mem_acceptedLocals (h : x ∈ f.acceptedLocals d) : x.IsCanonical := by
  obtain ⟨v, -, rfl⟩ := List.mem_map.1 (List.mem_filter.1 h).1
  trivial

/-- An edge inside a function adds no equality of variables but that of its statement. -/
theorem mem_or_equated_of_mem_factsAfter (hedge : p.edges[e]? = some edge)
    (hwithin : edge.kind.isInterprocedural = false) (ht : p.factsAfter s e = some t) {g : Fact}
    (hg : g ∈ t) (h : g.Glues) : g ∈ s ∨
      ∃ stmt, p.stmtAt edge.source = some stmt ∧
        stmt.equated? edge.kind = some (g.left, g.right) := by
  obtain ⟨source, target, kind⟩ := edge
  cases hstmt : p.stmtAt source with
  | none =>
    obtain rfl : s = t := by
      cases kind <;> simp_all [factsAfter, EdgeKind.isInterprocedural]
    exact .inl hg
  | some stmt =>
    obtain rfl : s.afterStatement kind stmt = t := by
      cases kind <;> simp_all [factsAfter, EdgeKind.isInterprocedural]
    exact (Facts.mem_or_equated_of_mem_afterStatement hg h).imp_right fun heq => ⟨stmt, rfl, heq⟩

/-- The facts after an edge tie a local that leaks along it exactly if the edge's own statement
ties it: by an equality that puts the local into one class with something that is tied. -/
theorem ties_leaking_iff (hexits : p.ExitsFromWithin) (hx : x ∈ p.leaksAt d facts e)
    (hedge : p.edges[e]? = some edge) (hf : p.functionOf edge.target = some f)
    (hs : facts edge.source = some s) (ht : p.factsAfter s e = some t) :
    t.ties f.id (p.returnedAt f edge.source) x = true ↔
      ∃ stmt a b, p.stmtAt edge.source = some stmt ∧ stmt.equated? edge.kind = some (a, b) ∧
        t.has a .eq b = true ∧ a ∈ t.varAliases x ∧
        t.ties f.id (p.returnedAt f edge.source) a = true := by
  obtain ⟨edge', node, f', s', hedge', hnode, hexit, hf', hs', hlocal, hties⟩ := mem_leaksAt.1 hx
  obtain rfl : edge = edge' := Option.some.inj (hedge.symm.trans hedge')
  obtain rfl : f = f' := Option.some.inj (hf.symm.trans hf')
  obtain rfl : s = s' := Option.some.inj (hs.symm.trans hs')
  have hcanonical := isCanonical_of_mem_acceptedLocals hlocal
  constructor
  · intro hafter
    obtain ⟨g, hg, hglues, hmem, hnew⟩ := Facts.exists_glues_of_ties hcanonical hties hafter
    have hwithin := hexits edge (Array.mem_of_getElem? hedge) node hnode hexit
    obtain ⟨stmt, hstmt, hequated⟩ :=
      (mem_or_equated_of_mem_factsAfter hedge hwithin ht hg hglues).resolve_left hnew
    refine ⟨stmt, g.left, g.right, hstmt, hequated, ?_, hmem, ?_⟩
    · rw [Facts.has, ← hglues.1, g.of_self]
      exact decide_eq_true hg
    · rwa [Facts.ties_congr hcanonical hmem]
  · rintro ⟨-, a, -, -, -, -, hmem, ha⟩
    rwa [Facts.ties_congr hcanonical hmem] at ha

def anyPtr : Decl := ⟨"ptr", .anyPointer, true, none⟩

def held : Expr := .var ⟨"x", some 0, .localVar, .pointer⟩

def kept (name : String) : Variable := ⟨name, none, .global, .pointer⟩

/-- The program `x = malloc(8); g = …;`, where `x` is local and `g` is global. -/
def storing (value : Expr) : Program :=
  let node (kind : NodeKind) (stmt : Option Statement) : Node := ⟨some 0, kind, stmt, none⟩
  { nodes := #[⟨none, .root, none, none⟩, node .entry none, node .exit none,
      node .statement (some (.call (some held) "malloc" [.lit 8])),
      node .statement (some (.assign (.var (kept "g")) (.use value)))]
    edges := #[⟨1, 3, .flow .always⟩, ⟨3, 4, .flow .always⟩, ⟨4, 2, .flow .always⟩, ⟨0, 1, .root⟩]
    functions := #[⟨0, "f", [], [⟨"x", some 0, .localVar, .pointer⟩], 1, 2, none, none, none⟩]
    globals := [kept "g", kept "h"] }

/-- What the solved facts of `storing` say of its last edge. -/
def testLast (value : Expr) (test : FactsSolution → Facts → Bool) : Bool :=
  match (storing value).factsProblem.solve "facts" 100 with
  | .error _ => false
  | .ok sol => (sol.value 4).any fun s => ((storing value).factsAfter s 2).any (test sol)

theorem exists_of_testLast (value : Expr) (test : FactsSolution → Facts → Bool)
    (h : testLast value test = true) : ∃ sol s t,
      (storing value).factsProblem.solve "facts" 100 = .ok sol ∧ sol.value 4 = some s ∧
      (storing value).factsAfter s 2 = some t ∧ test sol t = true := by
  unfold testLast at h
  split at h
  · cases h
  · rename_i sol hsol
    obtain ⟨s, hs, h⟩ := (Option.any_eq_true _ _).1 h
    obtain ⟨t, ht, h⟩ := (Option.any_eq_true _ _).1 h
    exact ⟨sol, s, t, hsol, hs, ht, h⟩

/-- Where `storing` stores another global, `x` leaks and is not tied after the last edge. -/
theorem ties_leaking_iff_storing : ∃ sol s t edge f,
    (storing (.var (kept "h"))).factsProblem.solve "facts" 100 = .ok sol ∧
    (storing (.var (kept "h"))).edges[2]? = some edge ∧
    (storing (.var (kept "h"))).functionOf edge.target = some f ∧
    sol.value edge.source = some s ∧ (storing (.var (kept "h"))).factsAfter s 2 = some t ∧
    t.has (.var (kept "g")) .eq (.var (kept "h")) = true ∧
    held ∈ (storing (.var (kept "h"))).leaksAt anyPtr sol.value 2 ∧
    t.ties f.id ((storing (.var (kept "h"))).returnedAt f edge.source) held = false := by
  obtain ⟨sol, s, t, hsol, hs, ht, htest⟩ := exists_of_testLast (.var (kept "h"))
    (fun sol t => t.has (.var (kept "g")) .eq (.var (kept "h")) &&
      decide (held ∈ (storing (.var (kept "h"))).leaksAt anyPtr sol.value 2) &&
      decide (Expr.var (kept "g") ∉ t.varAliases held)) (by decide +kernel)
  simp only [Bool.and_eq_true, decide_eq_true_eq] at htest
  obtain ⟨⟨heq, hx⟩, hapart⟩ := htest
  refine ⟨sol, s, t, _, _, hsol, rfl, rfl, hs, ht, heq, hx, Bool.eq_false_iff.2 fun hties => ?_⟩
  obtain ⟨stmt, a, b, hstmt, hequated, -, hmem, -⟩ :=
    (ties_leaking_iff (by decide) hx rfl rfl hs ht).1 hties
  cases hstmt
  cases hequated
  exact hapart hmem

/-- Where `storing` stores `x`, the facts after the last edge tie `x` to a global, and yet `x`
leaks there. -/
theorem storing_leaks_tied : ∃ sol s t edge f, (storing held).ExitsFromWithin ∧
    (storing held).factsProblem.solve "facts" 100 = .ok sol ∧
    (storing held).edges[2]? = some edge ∧ (storing held).functionOf edge.target = some f ∧
    sol.value edge.source = some s ∧ (storing held).factsAfter s 2 = some t ∧
    t.isPossible = true ∧ held ∈ (storing held).leaksAt anyPtr sol.value 2 ∧
    t.ties f.id ((storing held).returnedAt f edge.source) held = true := by
  obtain ⟨sol, s, t, hsol, hs, ht, htest⟩ := exists_of_testLast held
    (fun sol t => t.isPossible &&
      decide (held ∈ (storing held).leaksAt anyPtr sol.value 2) && t.ties 0 none held)
    (by decide +kernel)
  simp only [Bool.and_eq_true, decide_eq_true_eq] at htest
  obtain ⟨⟨hpossible, hx⟩, hties⟩ := htest
  exact ⟨sol, s, t, _, _, by decide, hsol, rfl, rfl, hs, ht, hpossible, hx, hties⟩

end Program

end Typestate

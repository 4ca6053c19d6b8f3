import Typestate.Proofs.Attribution
import Typestate.Proofs.Match.Leaks
import Typestate.Proofs.States.Precedence

/-!
# States after a statement

The last statement of a function takes effect on the edge into its exit, and so do the rules that
look for leaks. After a copy these rules are tried on the copied value. After any other statement,
though, they are tried in the states before it, together with the rules for the statement itself. So
a leak is found in a state that the statement may have taken from the local.
-/
namespace Typestate

namespace StatesContext

open NodeStates

variable {ctx : StatesContext} {n : NodeId} {scope : Option FunctionId} {v : NodeStates}
  {e : EdgeId} {edge : Edge} {l : List PossibleMatch} {c : EquivClass} {x y : Expr} {t : State}
  {f : Finding}

/-- Whether rules leave an expression in a state: those with the last word on it, or else the states
of its classes in scope stay. -/
def LeftIn (ctx : StatesContext) (n : NodeId) (scope : Option FunctionId) (v : NodeStates)
    (l : List PossibleMatch) (y : Expr) (t : State) : Prop :=
  (∃ d c, v.Decides l y d c ∧ ctx.Leaves n v (v.rulesOn l d) c t) ∨
    (∀ m ∈ l, ∀ d, v.targetsOf m = some d → y ∉ d) ∧
      ∃ c, y ∈ c ∧ EquivClass.isInScope c scope = true ∧ v.map.MayBe c t

theorem mayBe_applyRules_iff_leftIn :
    (ctx.applyRules n v l (v.flatten scope)).exprs.MayBe y t ↔ ctx.LeftIn n scope v l y t := by
  rcases ctx.applyRules_cases n v l (v.flatten scope) y with ⟨hnone, hsame⟩ | ⟨d, c, h, hleaves⟩
  · have hundecided : ∀ {d c}, ¬ v.Decides l y d c := fun h => h.not_forall_not_mem hnone
    simp only [hsame, mayBe_flatten, LeftIn, hundecided, false_and, exists_false, false_or,
      and_iff_right hnone]
  · rw [hleaves, LeftIn, or_iff_left fun h' => h.not_forall_not_mem h'.1]
    constructor
    · exact fun ht => ⟨d, c, h, ht⟩
    · rintro ⟨d', c', h', ht⟩
      obtain ⟨rfl, rfl⟩ := h.unique h'
      exact ht

/-- The rules along an edge that are for its statement. -/
def ownRules (ctx : StatesContext) (e : EdgeId) : List PossibleMatch :=
  (ctx.possibleAt e).filter fun m => !m.found.isLeak

/-- The value at the target of an edge once its statement has taken effect: the copied one, or what
the statement's own rules make of the one at the source. -/
def settled (ctx : StatesContext) (e : EdgeId) (edge : Edge) (v : NodeStates) : NodeStates :=
  match (ctx.program.stmtAt edge.source).bind Statement.copy? with
  | some (target, source) => ctx.copied v edge.target target source
  | none =>
    let scope := ctx.program.functionIdOf edge.target
    ctx.regroup edge.target
      (ctx.applyRules edge.source v (ctx.ownRules e) (v.flatten scope)).exprs (v.carried scope)

theorem mem_possibleAt_of_mem_triedAt {m : PossibleMatch} (hm : m ∈ ctx.triedAt e n) :
    m ∈ ctx.possibleAt e := by
  unfold triedAt at hm
  split at hm
  · exact hm
  · exact (List.mem_filter.1 hm).1

section NoCopy

variable (hcopy : (ctx.program.stmtAt edge.source).bind Statement.copy? = none)
include hcopy

/-- Where nothing is copied, a class in scope at the target is in the states that the own rules of
the statement leave its members in, if some are known. -/
theorem mayBe_settled_iff (hc : c ∈ ctx.classesAt edge.target)
    (hscope : EquivClass.isInScope c (ctx.program.functionIdOf edge.target) = true)
    (hknown : ∃ y ∈ c, ∃ t, ctx.LeftIn edge.source (ctx.program.functionIdOf edge.target) v
      (ctx.ownRules e) y t) :
    (ctx.settled e edge v).map.MayBe c t ↔ ∃ y ∈ c,
      ctx.LeftIn edge.source (ctx.program.functionIdOf edge.target) v (ctx.ownRules e) y t := by
  obtain ⟨z, hz, t', ht'⟩ := hknown
  unfold settled
  rw [hcopy]
  simp only [mayBe_regroup_iff, mem_gather, mayBe_applyRules_iff_leftIn, and_iff_right hc]
  constructor
  · rintro ((ht | ⟨hnone, -⟩) | ⟨s, hs, -⟩)
    · exact ht
    · exact absurd ht' (hnone z hz t')
    · rw [get?_carried, if_pos hscope] at hs
      cases hs
  · exact fun ht => .inl (.inl ht)

end NoCopy

/-- Rules leave an expression of a class in scope in some state, if all classes have states. -/
theorem exists_leftIn (hv : v.map.Filled) (hscope : EquivClass.isInScope c scope = true)
    (hyc : y ∈ c) (hc : ∃ s, v.map.get? c = some s) : ∃ t, ctx.LeftIn n scope v l y t := by
  rcases ctx.applyRules_cases n v l (v.flatten scope) y with ⟨hnone, -⟩ | ⟨d, d', h, -⟩
  · obtain ⟨t, ht⟩ := hv.exists_mayBe_iff.2 hc
    exact ⟨t, .inr ⟨hnone, c, hyc, hscope, ht⟩⟩
  · obtain ⟨m, -, hm, -⟩ := h.rule
    obtain ⟨t, ht⟩ := exists_leaves (l := v.rulesOn l d)
      (hv.exists_mayBe_iff.2 (mem_of_classOf hm).2)
    exact ⟨t, .inl ⟨d, d', h, ht⟩⟩

/-- Each finding along an edge is about the expression and the match of a rule there. -/
theorem exists_rule_of_mem_incidents (h : .finding f ∈ (ctx.transfer v e).incidents) :
    ∃ m ∈ ctx.possibleAt e, m.expr = f.expr ∧ m.found = f.found := by
  cases ctx.conducts e with
  | blocked heq | root _ _ heq | enter _ _ heq | leave _ _ heq =>
    rw [heq] at h
    cases h
  | @flow edge guard he hf hk heq =>
    rw [heq, incidents_flow, mem_incidents_applied_iff] at h
    obtain ⟨m, hm, c, s, -, -, -, hfire⟩ := h
    obtain ⟨r, rfl⟩ := mem_incidents_fire hfire
    exact ⟨m, mem_possibleAt_of_mem_triedAt hm, rfl, rfl⟩

/-- A leak along an edge is one of a local that leaks there. After a copy it is found in a state
that the local is in then. After any other statement it is found in a state from before. The local
is still in this one exactly if the statement's own rules leave some member of its class in it. -/
theorem leak_settled_iff {p : Program} {a : Automaton} {facts : FactsSolution}
    (he : p.edges[e]? = some edge)
    (h : .finding f ∈ ((StatesContext.of p a facts).transfer v e).incidents)
    (hleak : f.found.isLeak = true) :
    let ctx := StatesContext.of p a facts
    let scope := p.functionIdOf edge.target
    f.expr ∈ p.leaksAt a.stateful facts.value e ∧
    (((p.stmtAt edge.source).bind Statement.copy?).isSome = true →
      (ctx.settled e edge v).Bears f) ∧
    ((p.stmtAt edge.source).bind Statement.copy? = none → v.Bears f ∧
      ∀ c, (ctx.settled e edge v).classOf f.expr = some c → c ∈ ctx.classesAt edge.target →
        v.map.Filled → EquivClass.isInScope c scope = true →
        EquivClass.isInScope f.cls scope = true →
        ((ctx.settled e edge v).map.MayBe c f.state ↔
          ∃ y ∈ c, ctx.LeftIn edge.source scope v (ctx.ownRules e) y f.state)) := by
  intro ctx scope
  have he : ctx.program.edges[e]? = some edge := he
  obtain ⟨-, hbears, -⟩ := bears_of_mem_incidents he h
  refine ⟨?_, fun hcopy => ?_, fun hcopy => ?_⟩
  · obtain ⟨m, hm, hexpr, hfound⟩ := exists_rule_of_mem_incidents h
    have hvars : ∀ x ∈ p.leaksAt a.stateful facts.value e, ∃ y, x = .var y := by
      intro x hx
      obtain ⟨-, -, f', -, -, -, -, -, -, hlocal, -⟩ := Program.mem_leaksAt.1 hx
      obtain ⟨y, -, rfl⟩ := List.mem_map.1 (List.mem_filter.1 hlocal).1
      exact ⟨y, rfl⟩
    rw [← hexpr]
    exact Automaton.expr_mem_of_isLeak (mem_possibleAt_of hm) hvars (hfound ▸ hleak)
  · obtain ⟨⟨target, source⟩, hcopy⟩ := Option.isSome_iff_exists.1 hcopy
    have hcopy : (ctx.program.stmtAt edge.source).bind Statement.copy? = some (target, source) :=
      hcopy
    rw [triedOn_of_copy hcopy] at hbears
    rwa [settled, hcopy]
  · have hcopy : (ctx.program.stmtAt edge.source).bind Statement.copy? = none := hcopy
    rw [triedOn_of_copy_eq_none hcopy] at hbears
    refine ⟨hbears, fun c hc hmem hv hscope hfscope => mayBe_settled_iff hcopy hmem hscope ?_⟩
    obtain ⟨hfc, hstates⟩ := mem_of_classOf hbears.1
    exact ⟨_, (mem_of_classOf hc).1, exists_leftIn hv hfscope hfc hstates⟩

end StatesContext

namespace Analysis

def allocation (name : String) : Expr := .var ⟨name, some 0, .localVar, .pointer⟩

/-- The program `x = malloc(8); y = malloc(8); free(…);` with locals `x` and `y`. -/
def releasing (released : String) : Program :=
  let node (kind : NodeKind) (stmt : Option Statement) : Node := ⟨some 0, kind, stmt, none⟩
  { nodes := #[⟨none, .root, none, none⟩, node .entry none, node .exit none,
      node .statement (some (.call (some (allocation "x")) "malloc" [.lit 8])),
      node .statement (some (.call (some (allocation "y")) "malloc" [.lit 8])),
      node .statement (some (.call none "free" [allocation released]))]
    edges := #[⟨1, 3, .flow .always⟩, ⟨3, 4, .flow .always⟩, ⟨4, 5, .flow .always⟩,
      ⟨5, 2, .flow .always⟩, ⟨0, 1, .root⟩]
    functions := #[⟨0, "f", [], [⟨"x", some 0, .localVar, .pointer⟩,
      ⟨"y", some 0, .localVar, .pointer⟩], 1, 2, none, none, none⟩]
    globals := [] }

/-- The machine that finds allocations which are neither freed nor referred to. -/
def frees : Automaton :=
  let ptr : Decl := ⟨"ptr", .anyPointer, true, none⟩
  let machine : Machine :=
    { name := "frees"
      clauses := [.decl ptr,
        .states ⟨["ptr.start"], [⟨.shape (.callResult (.decl "ptr") "malloc"),
          [.goto (.named "ptr.unknown")], none⟩], none⟩,
        .states ⟨["ptr.unknown"], [⟨.shape (.callArgs "free" [.decl "ptr"]),
          [.goto (.named "ptr.freed")], none⟩,
          ⟨.shape (.leaked (.decl "ptr")), [.error "leak of \x7bptr\x7d" none], none⟩], none⟩] }
  machine.automaton ptr

def lastEdge : Edge := ⟨5, 2, .flow .always⟩

/-- If `y` is freed last, `x` leaks in the state that it is in then. -/
theorem leak_settled_iff_releasing : ∃ a v f c, solve (releasing "y") frees 100 = .ok a ∧
    a.states.value 5 = some v ∧ .finding f ∈ (a.context.transfer v 3).incidents ∧
    f.found.isLeak = true ∧ f.expr = allocation "x" ∧
    (a.context.settled 3 lastEdge v).classOf f.expr = some c ∧
    (a.context.settled 3 lastEdge v).map.MayBe c f.state := by
  obtain ⟨a, ha, htest⟩ := exists_eq_ok_of_any (solve (releasing "y") frees 100)
    (fun a => (a.states.value 5).any fun v => a.log.findings.any fun f =>
      decide (Incident.finding f ∈ (a.context.transfer v 3).incidents) && f.found.isLeak &&
      decide (f.expr = allocation "x") && EquivClass.isInScope f.cls (some 0) &&
      ((a.context.ownRules 3).all fun m =>
        (v.targetsOf m).all fun d : EquivClass => decide (f.expr ∉ d)) &&
      ((a.context.settled 3 lastEdge v).classOf f.expr).any fun c =>
        decide (c ∈ a.context.classesAt 2) && EquivClass.isInScope c (some 0))
    (by decide +kernel)
  simp only [Option.any_eq_true, List.any_eq_true, Bool.and_eq_true, decide_eq_true_eq,
    List.all_eq_true] at htest
  obtain ⟨v, hv, f, -, ⟨⟨⟨⟨hi, hleak⟩, hexpr⟩, hscope⟩, hspared⟩, c, hc, hclass, hcscope⟩ := htest
  refine ⟨a, v, f, c, ha, hv, hi, hleak, hexpr, hc, ?_⟩
  have hfilled := filled_of_solve (by decide) ha hv
  obtain ⟨facts, -, hctx, -⟩ := solve_eq_ok ha
  rw [hctx] at hi hc hclass hspared ⊢
  have hsimplify : f.expr.simplify = f.expr := by
    rw [hexpr]
    rfl
  have he : (releasing "y").edges[3]? = some lastEdge := rfl
  obtain ⟨-, -, hmain⟩ := StatesContext.leak_settled_iff he hi hleak
  obtain ⟨⟨hfc, hmay⟩, hiff⟩ := hmain rfl
  refine (hiff c hc hclass hfilled hcscope hscope).2
    ⟨f.expr, hsimplify ▸ (NodeStates.mem_of_classOf hc).1, .inr ⟨fun m hm d hd => ?_, f.cls,
      hsimplify ▸ (NodeStates.mem_of_classOf hfc).1, hscope, hmay⟩⟩
  simpa [hd] using hspared m hm

/-- If `x` is freed last, it leaks in the state that it was in before, and is not in this state any
more. -/
theorem releasing_leaks_freed : ∃ a v f c, (releasing "x").WellFormed ∧
    solve (releasing "x") frees 100 = .ok a ∧ a.states.value 5 = some v ∧ f ∈ a.log.findings ∧
    .finding f ∈ (a.context.transfer v 3).incidents ∧ f.found.isLeak = true ∧
    f.expr = allocation "x" ∧
    (a.context.settled 3 lastEdge v).classOf f.expr = some c ∧
    ¬ (a.context.settled 3 lastEdge v).map.MayBe c f.state := by
  obtain ⟨a, ha, htest⟩ := exists_eq_ok_of_any (solve (releasing "x") frees 100)
    (fun a => (a.states.value 5).any fun v => a.log.findings.any fun f =>
      decide (Incident.finding f ∈ (a.context.transfer v 3).incidents) && f.found.isLeak &&
      decide (f.expr = allocation "x") &&
      ((a.context.settled 3 lastEdge v).classOf f.expr).any fun c =>
        ((a.context.settled 3 lastEdge v).map.get? c).all (f.state ∉ ·))
    (by decide +kernel)
  simp only [Option.any_eq_true, List.any_eq_true, Bool.and_eq_true, decide_eq_true_eq] at htest
  obtain ⟨v, hv, f, hf, ⟨⟨hi, hleak⟩, hexpr⟩, c, hc, hnot⟩ := htest
  refine ⟨a, v, f, c, by decide, ha, hv, hf, hi, hleak, hexpr, hc, ?_⟩
  rintro ⟨s, hs, ht⟩
  rw [hs] at hnot
  simp [ht] at hnot

end Analysis

end Typestate

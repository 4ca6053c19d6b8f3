import Typestate.Proofs.States.Globals
import Typestate.Proofs.States.Termination

/-!
# Classes that a look-up finds

A look-up takes the first class that holds an expression. Next to the classes at its node a value
has classes that travel along, each as long as it is not in scope, whatever it holds. So a look-up
may have a choice: where a global, or a variable of the function, is in one class with a variable of
another function, that class travels on and still holds it. Which class is found is then a matter of
their order.
-/
namespace Typestate

namespace StatesContext

open NodeStates

variable {ctx : StatesContext} {n : NodeId} {c d : EquivClass} {v u : NodeStates} {e : EdgeId}
  {edge : Edge}

/-- Whether an edge lets a class travel along: it is not in scope at the target, and does not belong
to the function that is left. -/
def LetsTravel (ctx : StatesContext) (edge : Edge) (c : EquivClass) : Prop :=
  EquivClass.isInScope c (ctx.program.functionIdOf edge.target) = false ∧
    ((∃ call, edge.kind = .leave call) →
      EquivClass.owner c ≠ ctx.program.functionIdOf edge.source)

theorem owner_ne_of_leave (hwf : ctx.program.WellFormed) (he : ctx.program.edges[e]? = some edge)
    (hu : (ctx.transfer v e).result = some u) (hc : c ∉ ctx.classesAt edge.target) {s : States}
    (hs : u.map.get? c = some s) (hleave : ∃ call, edge.kind = .leave call) :
    EquivClass.owner c ≠ ctx.program.functionIdOf edge.source := by
  obtain ⟨call, hk⟩ := hleave
  obtain ⟨callee, result, args, hcallee, -, rfl⟩ := exists_of_leave he hk hu
  rw [get?_regroup_of_not_mem hc, get?_carried] at hs
  split at hs
  · cases hs
  · rw [get?_without] at hs
    split at hs
    · cases hs
    · rename_i howner
      rwa [hwf.functionIdOf_eq hcallee]

/-- An edge carries the classes at its target, and those of its source that travel along. -/
theorem exists_get?_transfer_iff (hwf : ctx.program.WellFormed)
    (he : ctx.program.edges[e]? = some edge) (hu : (ctx.transfer v e).result = some u) :
    (∃ s, u.map.get? c = some s) ↔
      c ∈ ctx.classesAt edge.target ∨ ctx.LetsTravel edge c ∧ ∃ s, v.map.get? c = some s := by
  obtain ⟨exprs, w, hcarries, rfl⟩ := transfer_eq_regroup hwf he hu
  by_cases hc : c ∈ ctx.classesAt edge.target
  · exact iff_of_true (exists_get?_regroup.2 (.inl hc)) (.inl hc)
  · constructor
    · rintro ⟨s, hs⟩
      have howner := owner_ne_of_leave hwf he hu hc hs
      rw [get?_regroup_of_not_mem hc, get?_carried] at hs
      split at hs
      · cases hs
      · rename_i hscope
        refine .inr ⟨⟨Bool.eq_false_iff.2 hscope, howner⟩, s, ?_⟩
        exact (hcarries.known c s hs).resolve_left hc
    · rintro (hmem | ⟨⟨hscope, howner⟩, s, hs⟩)
      · exact absurd hmem hc
      · refine ⟨s, ?_⟩
        rw [get?_regroup_of_not_mem hc, get?_carried, hscope, hcarries.kept c hc hscope howner]
        exact hs

/-- Whether an edge carries values. It then carries all. -/
def Conveys (ctx : StatesContext) (e : EdgeId) : Prop := ∃ v u, (ctx.transfer v e).result = some u

theorem Conveys.exists_result (h : ctx.Conveys e) (v : NodeStates) :
    ∃ u, (ctx.transfer v e).result = some u := by
  obtain ⟨w, u, hu⟩ := h
  cases ctx.conducts e with
  | blocked heq =>
    rw [heq] at hu
    cases hu
  | root _ _ heq => exact ⟨_, congrArg Passage.result (heq v)⟩
  | enter _ _ heq =>
    simp only [heq, Passage.quiet, enter, Option.bind_eq_bind, Option.bind_eq_some_iff] at hu ⊢
    obtain ⟨callee, hcallee, call, hcall, -⟩ := hu
    exact ⟨_, callee, hcallee, call, hcall, rfl⟩
  | leave _ _ heq =>
    simp only [heq, Passage.quiet, leave, Option.bind_eq_bind, Option.bind_eq_some_iff] at hu ⊢
    obtain ⟨callee, hcallee, call, hcall, -⟩ := hu
    exact ⟨_, callee, hcallee, call, hcall, rfl⟩
  | @flow edge _ _ _ _ heq =>
    rw [heq]
    cases hcopy : (ctx.program.stmtAt edge.source).bind Statement.copy? with
    | none =>
      rw [flow_of_copy_eq_none hcopy]
      exact ⟨_, rfl⟩
    | some pair => exact exists_result_flow hcopy v e edge.target

/-- Whether values come to a node. -/
inductive IsReached (ctx : StatesContext) : NodeId → Prop
  | root : IsReached ctx Program.root
  | along {e : EdgeId} {edge : Edge} (he : ctx.program.edges[e]? = some edge)
      (hconveys : ctx.Conveys e) (h : IsReached ctx edge.source) : IsReached ctx edge.target

/-- Whether a class comes to a node: it is one of those there, or travels there from where it has
come to. -/
inductive ComesTo (ctx : StatesContext) (c : EquivClass) : NodeId → Prop
  | here {n : NodeId} (hn : ctx.IsReached n) (hc : c ∈ ctx.classesAt n) : ComesTo ctx c n
  | along {e : EdgeId} {edge : Edge} (he : ctx.program.edges[e]? = some edge)
      (hconveys : ctx.Conveys e) (htravels : ctx.LetsTravel edge c)
      (h : ComesTo ctx c edge.source) : ComesTo ctx c edge.target

theorem ComesTo.exists_mem_classesAt (h : ctx.ComesTo c n) :
    ∃ m, ctx.IsReached m ∧ c ∈ ctx.classesAt m := by
  induction h with
  | here hn hc => exact ⟨_, hn, hc⟩
  | along _ _ _ _ ih => exact ih

theorem ComesTo.mem_classesAt (h : ctx.ComesTo c n)
    (hscope : EquivClass.isInScope c (ctx.program.functionIdOf n) = true) :
    c ∈ ctx.classesAt n := by
  cases h with
  | here _ hc => exact hc
  | along _ _ htravels _ =>
    rw [htravels.1] at hscope
    cases hscope

theorem preserves_comesTo (hwf : ctx.program.WellFormed) : ctx.problem.Preserves fun n v =>
    ctx.IsReached n ∧ ∀ c, (∃ s, v.map.get? c = some s) → ctx.ComesTo c n where
  seed n hn := by
    obtain rfl : n = Program.root := List.mem_singleton.1 hn
    exact ⟨.root, fun c hc => .here .root ((fits_initial.keys c).1 hc)⟩
  transfer {n v x u} hv hx hu := by
    obtain ⟨edge, he, rfl, htarget⟩ := Program.mem_successors.1 hx
    have hconveys : ctx.Conveys x.1 := ⟨v, u, hu⟩
    rw [← htarget]
    have hreached : ctx.IsReached edge.target := .along he hconveys hv.1
    refine ⟨hreached, fun c hc => ?_⟩
    rcases (exists_get?_transfer_iff hwf he hu).1 hc with hc | ⟨htravels, hc⟩
    · exact .here hreached hc
    · exact .along he hconveys htravels (hv.2 c hc)
  meet hv hw := ⟨hv.1, fun c hc => (exists_get?_meet.1 hc).elim (hv.2 c) (hw.2 c)⟩

section Solution

variable {pass : String} {limit : Nat} {sol : StatesSolution} (hwf : ctx.program.WellFormed)
  (hs : ctx.problem.solve pass limit = .ok sol)
include hwf hs

/-- In the end the values at both ends of an edge that carries values are there, and the one at the
target has what the edge carries. -/
theorem exists_value_of_conveys (he : ctx.program.edges[e]? = some edge)
    (hconveys : ctx.Conveys e) (hv : sol.value edge.source = some v) :
    ∃ w, sol.value edge.target = some w ∧
      ∀ c, ctx.LetsTravel edge c → (∃ s, v.map.get? c = some s) → ∃ s, w.map.get? c = some s := by
  obtain ⟨u, hu⟩ := hconveys.exists_result v
  obtain ⟨w, hw, hbelow⟩ := exists_value_of_transfer hs he hv hu
  refine ⟨w, hw, fun c htravels hc => ?_⟩
  have hsuccessor : (e, edge.target) ∈ ctx.problem.successors edge.source :=
    Program.mem_successors.2 ⟨edge, he, rfl, rfl⟩
  have hcovers : ctx.Covers edge.target u :=
    (preserves_covers hwf).transfer ((preserves_covers hwf).solve hs hv) hsuccessor hu
  exact hcovers.exists_of_below hbelow
    ((exists_get?_transfer_iff hwf he hu).2 (.inr ⟨htravels, hc⟩))

theorem exists_value_of_isReached (h : ctx.IsReached n) : ∃ v, sol.value n = some v := by
  induction h with
  | root =>
    obtain ⟨v, hv, -⟩ := (rises_problem ctx).reaches_seed hs (n := Program.root) (by simp [problem])
    exact ⟨v, hv⟩
  | along he hconveys _ ih =>
    obtain ⟨v, hv⟩ := ih
    obtain ⟨w, hw, -⟩ := exists_value_of_conveys hwf hs he hconveys hv
    exact ⟨w, hw⟩

/-- The value at a node has just the classes that come there. -/
theorem comesTo_iff : ctx.ComesTo c n ↔ ∃ v, sol.value n = some v ∧ ∃ s, v.map.get? c = some s := by
  constructor
  · intro h
    induction h with
    | here hn hc =>
      obtain ⟨v, hv⟩ := exists_value_of_isReached hwf hs hn
      exact ⟨v, hv, ((preserves_covers hwf).solve hs hv).classes hc⟩
    | along he hconveys htravels _ ih =>
      obtain ⟨v, hv, hc⟩ := ih
      obtain ⟨w, hw, hkeeps⟩ := exists_value_of_conveys hwf hs he hconveys hv
      exact ⟨w, hw, hkeeps _ htravels hc⟩
  · rintro ⟨v, hv, hc⟩
    exact ((preserves_comesTo hwf).solve hs hv).2 c hc

/-- The values at a node hold an expression once if one class at most that comes there does. -/
theorem stores_holdsOnce_iff {x : Expr} : (∀ v, ctx.problem.Stores n v → v.HoldsOnce x) ↔
    ∀ c d, ctx.ComesTo c n → ctx.ComesTo d n → x ∈ c → x ∈ d → c = d := by
  constructor
  · intro honce c d hc hd hxc hxd
    obtain ⟨v, hv, s, hs'⟩ := (comesTo_iff hwf hs).1 hc
    obtain ⟨w, hw, t, ht⟩ := (comesTo_iff hwf hs).1 hd
    obtain rfl := Option.some.inj (hv.symm.trans hw)
    exact honce v (Dataflow.stores_of_value hs hv) c d s t hs' ht hxc hxd
  · intro hunique v hv c d s t hs' ht hxc hxd
    have hcomes := (preserves_comesTo hwf).of_stores hv
    exact hunique c d (hcomes.2 c ⟨s, hs'⟩) (hcomes.2 d ⟨t, ht⟩) hxc hxd

end Solution

/-- No value stored at a node gives the look-up of an expression a choice, just if no two classes
that come to the node hold the expression. This is so if every class of reached nodes that holds it
is in scope at the node: a global is equal to globals only, and a variable belongs to the function.
A look-up without a choice finds whatever class holds the expression. -/
theorem problem_holdsOnce_iff {p : Program} {a : Automaton} {facts : FactsSolution}
    (hwf : p.WellFormed) {pass : String} {limit : Nat} {sol : StatesSolution}
    (hs : (StatesContext.of p a facts).problem.solve pass limit = .ok sol) (n : NodeId) (x : Expr) :
    ((∀ v, (StatesContext.of p a facts).problem.Stores n v → v.HoldsOnce x.simplify) ↔
      ∀ c d, (StatesContext.of p a facts).ComesTo c n → (StatesContext.of p a facts).ComesTo d n →
        x.simplify ∈ c → x.simplify ∈ d → c = d) ∧
    ((∀ m c, (StatesContext.of p a facts).IsReached m →
        c ∈ (StatesContext.of p a facts).classesAt m → x.simplify ∈ c →
        EquivClass.isInScope c (p.functionIdOf n) = true) →
      ∀ v, (StatesContext.of p a facts).problem.Stores n v → v.HoldsOnce x.simplify) ∧
    ∀ v : NodeStates, v.HoldsOnce x.simplify ↔
      ∀ c s, x.simplify ∈ c → v.map.get? c = some s → v.entryOf x = some (c, s) := by
  have hiff := stores_holdsOnce_iff (n := n) hwf hs (x := x.simplify)
  refine ⟨hiff, fun hscope => hiff.2 fun c d hc hd hxc hxd => ?_, fun v => holdsOnce_iff⟩
  have hat : ∀ {c}, (StatesContext.of p a facts).ComesTo c n → x.simplify ∈ c →
      c ∈ (StatesContext.of p a facts).classesAt n := by
    intro c hc hxc
    obtain ⟨m, hm, hcm⟩ := hc.exists_mem_classesAt
    exact hc.mem_classesAt (hscope m c hm hcm hxc)
  exact disjoint_classesAt_of (hat hc hxc) (hat hd hxd) hxc hxd

end StatesContext

namespace Analysis

section Regaining

/-- The program `main() { a = g; f(); }` with `f() { g = malloc(8); ; }`, or with a function `main`
that does not copy the global. -/
def regaining (copies : Bool) : Program :=
  let a : Variable := ⟨"a", some 0, .localVar, .pointer⟩
  let node (f : FunctionId) (kind : NodeKind) (stmt : Option Statement) : Node :=
    ⟨some f, kind, stmt, none⟩
  { nodes := #[⟨none, .root, none, none⟩, node 0 .entry none, node 0 .exit none,
      node 1 .entry none, node 1 .exit none,
      node 0 .statement (some (if copies then .assign (.var a) (.use (.var shared)) else .nop)),
      node 0 .call (some (.call none "f" [])), node 0 .returnSite none,
      node 1 .statement (some (.call (some (.var shared)) "malloc" [.lit 8])),
      node 1 .statement (some .nop)]
    edges := #[⟨6, 3, .enter⟩, ⟨6, 7, .callToReturn⟩, ⟨4, 7, .leave 6⟩, ⟨1, 5, .flow .always⟩,
      ⟨5, 6, .flow .always⟩, ⟨7, 2, .flow .always⟩, ⟨3, 8, .flow .always⟩, ⟨8, 9, .flow .always⟩,
      ⟨9, 4, .flow .always⟩, ⟨0, 1, .root⟩]
    functions := #[⟨0, "main", [], [a], 1, 2, none, none, none⟩,
      ⟨1, "f", [], [], 3, 4, none, none, none⟩]
    globals := [shared] }

/-- Without the copy a class of `main` travels through `f`, but it does not hold the global, and a
look-up of the global has no choice. -/
theorem problem_holdsOnce_iff_regaining : ∃ a v c, (regaining false).WellFormed ∧
    solve (regaining false) allocations 100 = .ok a ∧ a.states.value 9 = some v ∧
    (∃ s, v.map.get? c = some s) ∧ c ∉ a.context.classesAt 9 ∧
    (v.entryOf (.var shared)).isSome ∧
    ∀ w, a.context.problem.Stores 9 w → w.HoldsOnce (.var shared) := by
  have hwf : (regaining false).WellFormed := by decide
  obtain ⟨a, ha, htest⟩ := exists_eq_ok_of_any (solve (regaining false) allocations 100)
    (fun a => (a.states.value 9).any fun v => (v.entryOf (.var shared)).isSome &&
      (v.map.keys.any fun c => decide (c ∉ a.context.classesAt 9)) &&
      decide (∀ c ∈ a.context.allClasses, Expr.var shared ∈ c →
        EquivClass.isInScope c ((regaining false).functionIdOf 9) = true)) (by decide +kernel)
  obtain ⟨v, hv, htest⟩ := (Option.any_eq_true _ _).1 htest
  simp only [Bool.and_eq_true, List.any_eq_true, decide_eq_true_eq] at htest
  obtain ⟨⟨hentry, c, hc, htravels⟩, hscope⟩ := htest
  obtain ⟨facts, -, hctx, hs⟩ := solve_eq_ok ha
  refine ⟨a, v, c, hwf, ha, hv, SortedMap.mem_keys_iff.1 hc, htravels, hentry, ?_⟩
  rw [hctx] at hs hscope ⊢
  obtain ⟨-, hsuffices, -⟩ :=
    StatesContext.problem_holdsOnce_iff hwf hs 9 (.var shared)
  exact hsuffices fun m c _ hc hg => hscope c (StatesContext.mem_allClasses hc) hg

/-- In `f` the global is in a class of its own after it has been allocated, and the class of `main`
that it shares with `a` has travelled there. A look-up finds the latter and the default state. -/
theorem regaining_holds_twice : ∃ a v c d s t, (regaining true).WellFormed ∧
    (∀ n stmt, (regaining true).stmtAt n = some stmt →
      ∀ x ∈ stmt.exprs, x.IsWithin ((regaining true).functionIdOf n)) ∧
    solve (regaining true) allocations 100 = .ok a ∧ a.context.problem.Stores 9 v ∧
    v.map.get? c = some s ∧ EquivClass.isInScope c ((regaining true).functionIdOf 9) = true ∧
    v.map.get? d = some t ∧ EquivClass.isInScope d ((regaining true).functionIdOf 9) = false ∧
    .var shared ∈ c ∧ .var shared ∈ d ∧ ¬ v.HoldsOnce (.var shared) ∧
    v.statesOf (.var shared) = some t ∧ s ≠ t := by
  have hall : ∀ node ∈ (regaining true).nodes, ∀ stmt ∈ node.stmt, ∀ x ∈ stmt.exprs,
      ∀ y ∈ x.vars, y.owner = none ∨ y.owner = node.function := by
    decide
  have hown : ∀ n stmt, (regaining true).stmtAt n = some stmt →
      ∀ x ∈ stmt.exprs, x.IsWithin ((regaining true).functionIdOf n) := by
    intro n stmt hstmt x hx y hy
    obtain ⟨node, hnode, hstmt⟩ := Option.bind_eq_some_iff.1 hstmt
    simpa [Program.functionIdOf, hnode] using
      hall node (Array.mem_of_getElem? hnode) stmt hstmt x hx y hy
  obtain ⟨a, ha, htest⟩ := exists_eq_ok_of_any (solve (regaining true) allocations 100)
    (fun a => (a.states.value 9).any fun v => (v.entryOf (.var shared)).any fun y =>
      !EquivClass.isInScope y.1 ((regaining true).functionIdOf 9) &&
      v.map.entries.any fun z => decide (.var shared ∈ z.1) &&
        EquivClass.isInScope z.1 ((regaining true).functionIdOf 9) && decide (z.2 ≠ y.2))
    (by decide +kernel)
  obtain ⟨v, hv, htest⟩ := (Option.any_eq_true _ _).1 htest
  obtain ⟨⟨d, t⟩, hentry, htest⟩ := (Option.any_eq_true _ _).1 htest
  obtain ⟨hd, htest⟩ := Bool.and_eq_true_iff.1 htest
  obtain ⟨⟨c, s⟩, hcs, htest⟩ := List.any_eq_true.1 htest
  simp only [Bool.and_eq_true, decide_eq_true_eq, Bool.not_eq_true'] at hd htest
  obtain ⟨⟨hgc, hc⟩, hst⟩ := htest
  obtain ⟨hgd, ht⟩ := NodeStates.entryOf_some hentry
  have hs := SortedMap.mem_entries_iff.1 hcs
  obtain ⟨facts, -, -, hsolve⟩ := solve_eq_ok ha
  refine ⟨a, v, c, d, s, t, by decide, hown, ha, Dataflow.stores_of_value hsolve hv, hs, hc, ht, hd,
    hgc, hgd, fun honce => ?_, congrArg (Option.map Prod.snd) hentry, hst⟩
  obtain rfl := honce c d s t hs ht hgc hgd
  rw [hc] at hd
  cases hd

end Regaining

end Analysis

end Typestate

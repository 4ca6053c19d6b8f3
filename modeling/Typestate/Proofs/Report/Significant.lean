import Typestate.Proofs.States.Aliases
import Typestate.Proofs.States.Groups
import Typestate.Report.Witness

/-!
# Which expression a witness follows

Along an edge the states pass takes the states of an expression from another one: from what is
copied, from an argument, a parameter or a returned value. A witness, walked backwards, goes from an
expression to one that stands for the same value before the edge. It should go to where the states
were taken from, and does so with two exceptions. A member that is copied is not followed, though
its states are those of what it is a member of. And of several parameters that one expression was
passed for, states come from the last one that has any, but the witness goes to the first.
-/
namespace Typestate

/-- The second expression of the first pair with a given first one. -/
def firstSource (pairs : List (Expr × Expr)) (x : Expr) : Option Expr :=
  (pairs.find? (·.1 = x)).map (·.2)

/-- The canonical value of a statement that assigns one or merges it. -/
def Statement.value? : Statement → Option Expr
  | assign _ (.use value) | phi _ value => some value.simplify
  | _ => none

namespace NodeStates

variable {v : NodeStates} {pairs : List (Expr × Expr)} {x s : Expr}

/-- The second expression of the last pair with a given first one that hands over states. -/
def lastSource (v : NodeStates) (pairs : List (Expr × Expr)) (x : Expr) : Option Expr :=
  (pairs.filterMap fun y =>
    if y.1 = x ∧ (v.statesOf y.2).isSome then some y.2 else none).getLast?

theorem handedTo_eq : v.handedTo pairs x = (v.lastSource pairs x).bind v.statesOf := by
  unfold handedTo lastSource
  induction pairs using List.reverseRecOn with
  | nil => rfl
  | append_singleton pairs y ih =>
    rw [List.filterMap_append, List.filterMap_append, List.getLast?_append, List.getLast?_append,
      ih]
    by_cases hy : y.1 = x
    · cases hs : v.statesOf y.2 <;> simp [hy, hs]
    · simp [hy]

theorem mem_of_lastSource (h : v.lastSource pairs x = some s) :
    (x, s) ∈ pairs ∧ ∃ t, v.statesOf s = some t := by
  obtain ⟨⟨x', s'⟩, hy, hs⟩ := List.mem_filterMap.1 (List.mem_of_getLast? h)
  split at hs
  · rename_i hcond
    obtain ⟨rfl, htracked⟩ := hcond
    obtain rfl := Option.some.inj hs
    exact ⟨hy, Option.isSome_iff_exists.1 htracked⟩
  · cases hs

theorem get?_handOver_of_lastSource (h : v.lastSource pairs x = some s) (exprs : ExprStates) :
    (v.handOver pairs exprs).get? x = v.statesOf s := by
  obtain ⟨-, t, ht⟩ := mem_of_lastSource h
  rw [get?_handOver_eq, handedTo_eq, h, Option.bind_some, ht, Option.some_or]

theorem exists_firstSource (h : v.lastSource pairs x = some s) :
    ∃ y, firstSource pairs x = some y ∧ (x, y) ∈ pairs := by
  have hfound : (pairs.find? (·.1 = x)).isSome := by
    rw [List.find?_isSome]
    exact ⟨_, (mem_of_lastSource h).1, by simp⟩
  obtain ⟨⟨x', y⟩, hy⟩ := Option.isSome_iff_exists.1 hfound
  obtain rfl : x' = x := by simpa using List.find?_some hy
  exact ⟨y, congrArg (Option.map Prod.snd) hy, List.mem_of_find?_eq_some hy⟩

end NodeStates

namespace Program

variable {p : Program} {v : NodeStates} {e : EdgeId} {edge : Edge} {x s : Expr}

/-- What a call or a return hands over: expressions at its target, each with the one at its source
that the states are taken from. -/
def handedAlong (p : Program) (edge : Edge) : List (Expr × Expr) :=
  match edge.kind, p.calleeOf edge, p.callOf edge with
  | .enter, some callee, some (_, args) => callee.paramExprs.zip args
  | .leave _, some callee, some (_, args) => (args.map Expr.simplify).zip callee.paramExprs
  | _, _, _ => []

/-- The result that a return writes. -/
def resultOf (p : Program) (edge : Edge) : Option Expr :=
  match edge.kind with
  | .leave call => ((p.callAt call).bind (·.1)).map Expr.simplify
  | _ => none

/-- The expression at the source of an edge that the states of another one at the target are taken
from, if they are taken from any. -/
def sourceOf (p : Program) (v : NodeStates) (edge : Edge) (x : Expr) : Option Expr :=
  match edge.kind with
  | .flow _ => ((p.stmtAt edge.source).bind Statement.copy?).bind fun y =>
      if y.1 = x then some y.2 else none
  | _ =>
    if p.resultOf edge = some x then (p.calleeOf edge).bind (·.returned)
    else v.lastSource (p.handedAlong edge) x

/-- Whether a look backwards from one expression finds the other: the statement copies it, and no
member of it unless to itself, or it is the first that was handed over, if the result is not. -/
def FindsSource (p : Program) (edge : Edge) (x s : Expr) : Prop :=
  match edge.kind with
  | .flow _ => (p.stmtAt edge.source).bind Statement.value? = some s ∨ s = x
  | _ => p.resultOf edge = some x ∨
      (firstSource (p.handedAlong edge) x).map Expr.simplify = some s.simplify

theorem argumentFor_eq (hk : edge.kind = .enter) : p.argumentFor edge.source edge.target x =
    ((firstSource (p.handedAlong edge) x).map Expr.simplify).getD x := by
  unfold argumentFor handedAlong calleeOf callOf firstSource
  rw [hk]
  cases p.functionOf edge.target with
  | none => rfl
  | some callee =>
    cases p.callAt edge.source with
    | none => rfl
    | some call =>
      dsimp only
      cases (callee.paramExprs.zip call.2).find? (·.1 = x) <;> rfl

theorem parameter_eq {callee : Function} {args : List Expr} :
    calleeSide.parameter x callee args =
      ((firstSource ((args.map Expr.simplify).zip callee.paramExprs) x).map
        Expr.simplify).getD x := by
  have hzip : (args.map Expr.simplify).zip callee.paramExprs =
      (callee.paramExprs.zip args).map fun y => (y.2.simplify, y.1) := by
    rw [← List.zip_swap, List.zip_map_right, List.map_map]
    rfl
  unfold calleeSide.parameter firstSource
  rw [hzip, List.find?_map, Function.comp_def]
  dsimp only
  cases hy : (callee.paramExprs.zip args).find? (·.2.simplify = x) with
  | none => rfl
  | some y =>
    obtain ⟨param, -, hparam⟩ := List.mem_map.1 (List.of_mem_zip (List.mem_of_find?_eq_some hy)).1
    change y.1 = y.1.simplify
    rw [← hparam]
    rfl

theorem calleeSide_of_result {call : NodeId} (hk : edge.kind = .leave call)
    (hr : p.resultOf edge = some x) (hs : (p.calleeOf edge).bind (·.returned) = some s) :
    p.calleeSide call edge.source x = s.simplify := by
  unfold resultOf calleeOf at *
  rw [hk] at hr hs
  dsimp only at hr hs
  unfold calleeSide
  obtain ⟨callee, hcallee, hs⟩ := Option.bind_eq_some_iff.1 hs
  cases hcall : p.callAt call with
  | none => simp [hcall] at hr
  | some data =>
    obtain ⟨result, args⟩ := data
    rw [hcall, Option.bind_some] at hr
    simp [hcallee, hs, hr]

/-- From any other expression it finds the first parameter that the expression was passed for. -/
theorem calleeSide_of_ne {call : NodeId} (hk : edge.kind = .leave call)
    (hr : p.resultOf edge ≠ some x) : p.calleeSide call edge.source x =
      ((firstSource (p.handedAlong edge) x).map Expr.simplify).getD x := by
  unfold resultOf at hr
  unfold calleeSide handedAlong calleeOf callOf
  rw [hk] at hr ⊢
  dsimp only at hr ⊢
  cases p.functionOf edge.source with
  | none => rfl
  | some callee =>
    cases hcall : p.callAt call with
    | none => rfl
    | some data =>
      obtain ⟨result, args⟩ := data
      rw [hcall, Option.bind_some] at hr
      dsimp only at hr ⊢
      rw [← parameter_eq]
      cases callee.returned with
      | none => rfl
      | some value => exact if_neg hr

/-- What states are copied from is a variable or a version of one. -/
theorem copySource_spec {y : Expr} (hy : y.IsCanonical) (h : y.copySource = some s) :
    s.simplify = s ∧ ∀ b f t, s ≠ .field b f t := by
  induction y with
  | var v | ssa v k =>
    obtain rfl := Option.some.inj h
    exact ⟨Expr.simplify_of_isCanonical hy, nofun⟩
  | field b f t ih => exact ih hy h
  | lit | text | addrOf | deref | index => cases h

/-- A statement that copies assigns or merges a value, and what the states are copied from is told
by the value. -/
theorem exists_value_of_copy {stmt : Statement} (h : stmt.copy? = some (x, s)) :
    ∃ target value, (stmt = .assign target (.use value) ∨ stmt = .phi target value) ∧
      target.simplify = x ∧ value.simplify.copySource = some s := by
  cases stmt with
  | phi target value =>
    obtain ⟨source, hsource, hpair⟩ := Option.map_eq_some_iff.1 h
    obtain ⟨hx, rfl⟩ := Prod.mk.inj hpair
    exact ⟨target, value, .inr rfl, hx, hsource⟩
  | assign target rvalue =>
    cases rvalue with
    | use value =>
      obtain ⟨source, hsource, hpair⟩ := Option.map_eq_some_iff.1 h
      obtain ⟨hx, rfl⟩ := Prod.mk.inj hpair
      exact ⟨target, value, .inl rfl, hx, hsource⟩
    | binary | unary => cases h
  | call | cond | switch | ret | nop => cases h

/-- A look backwards over a copy finds what the states were copied from, unless that has a member
that is copied. -/
theorem copiedFrom_iff {n : NodeId} (hcopy : (p.stmtAt n).bind Statement.copy? = some (x, s)) :
    p.copiedFrom n x = s.simplify ↔ (p.stmtAt n).bind Statement.value? = some s ∨ s = x := by
  obtain ⟨stmt, hstmt, hcopy⟩ := Option.bind_eq_some_iff.1 hcopy
  obtain ⟨target, value, hform, htarget, hsource⟩ := exists_value_of_copy hcopy
  obtain ⟨hs, hmember⟩ := copySource_spec (Expr.isCanonical_simplify value) hsource
  have hvalue : (p.stmtAt n).bind Statement.value? = some value.simplify := by
    rcases hform with rfl | rfl <;> rw [hstmt] <;> rfl
  rw [hvalue, Option.some_inj, hs]
  unfold copiedFrom
  rw [hstmt]
  rcases hform with rfl | rfl
  all_goals
    dsimp only
    rw [if_pos htarget]
    cases hy : value.simplify with
    | var v | ssa v k =>
      rw [hy] at hsource
      obtain rfl := Option.some.inj hsource
      simp
    | field b f t => simp [(hmember b f t).symm, eq_comm]
    | lit | text | addrOf | deref | index =>
      rw [hy] at hsource
      cases hsource

/-- A look backwards along an edge comes to the expression that the states are taken from, just if
it finds it. -/
theorem exprBefore_iff (he : p.edges[e]? = some edge) (hs : p.sourceOf v edge x = some s) :
    p.exprBefore e x = s.simplify ↔ p.FindsSource edge x s := by
  have hhanded : p.resultOf edge ≠ some x → v.lastSource (p.handedAlong edge) x = some s →
      (((firstSource (p.handedAlong edge) x).map Expr.simplify).getD x = s.simplify ↔
        p.resultOf edge = some x ∨
          (firstSource (p.handedAlong edge) x).map Expr.simplify = some s.simplify) := by
    intro hr hlast
    obtain ⟨y, hy, -⟩ := NodeStates.exists_firstSource hlast
    simp [hy, hr]
  unfold sourceOf at hs
  unfold exprBefore FindsSource
  simp only [he]
  cases hk : edge.kind with
  | flow guard =>
    simp only [hk] at hs
    obtain ⟨⟨target, source⟩, hcopy, hpair⟩ := Option.bind_eq_some_iff.1 hs
    split at hpair
    · rename_i hx
      obtain rfl : target = x := hx
      obtain rfl : source = s := Option.some.inj hpair
      exact copiedFrom_iff hcopy
    · cases hpair
  | enter =>
    have hr : p.resultOf edge ≠ some x := by simp [resultOf, hk]
    simp only [hk, if_neg hr] at hs
    dsimp only
    rw [argumentFor_eq hk]
    exact hhanded hr hs
  | leave call =>
    simp only [hk] at hs
    dsimp only
    split at hs
    · rename_i hr
      exact iff_of_true (calleeSide_of_result hk hr hs) (.inl hr)
    · rename_i hr
      rw [calleeSide_of_ne hk hr]
      exact hhanded hr hs
  | callToReturn | root =>
    have hr : p.resultOf edge ≠ some x := by simp [resultOf, hk]
    simp only [hk, if_neg hr] at hs
    have hmem := (NodeStates.mem_of_lastSource hs).1
    simp [handedAlong, hk] at hmem

theorem sourceOf_eq_of_ne_flow (h : ∀ guard, edge.kind ≠ .flow guard) : p.sourceOf v edge x =
    if p.resultOf edge = some x then (p.calleeOf edge).bind (·.returned)
    else v.lastSource (p.handedAlong edge) x := by
  unfold sourceOf
  split
  · exact absurd ‹_› (h _)
  · rfl

theorem findsSource_iff_of_ne_flow (h : ∀ guard, edge.kind ≠ .flow guard) :
    p.FindsSource edge x s ↔ p.resultOf edge = some x ∨
      (firstSource (p.handedAlong edge) x).map Expr.simplify = some s.simplify := by
  unfold FindsSource
  split
  · exact absurd ‹_› (h _)
  · rfl

theorem findsSource_of_once (h : ∀ guard, edge.kind ≠ .flow guard)
    (hs : p.sourceOf v edge x = some s) (honce : ∀ y ∈ p.handedAlong edge, y.1 = x → y.2 = s) :
    p.FindsSource edge x s := by
  rw [findsSource_iff_of_ne_flow h]
  rw [sourceOf_eq_of_ne_flow h] at hs
  split at hs
  · rename_i hr
    exact .inl hr
  · obtain ⟨y, hy, hmem⟩ := NodeStates.exists_firstSource hs
    obtain rfl : y = s := honce _ hmem rfl
    exact .inr (by rw [hy, Option.map_some])

end Program

namespace StatesContext

open NodeStates

variable {ctx : StatesContext} {v u : NodeStates} {e : EdgeId} {edge : Edge} {x s : Expr}

/-- What an edge carries is gathered from expressions of which one has the states of its source, and
after a copy the rules follow that look for leaks. -/
theorem exists_exprs_of_source (he : ctx.program.edges[e]? = some edge)
    (hs : ctx.program.sourceOf v edge x = some s) (hu : (ctx.transfer v e).result = some u) :
    ∃ exprs extra, exprs.get? x = some ((v.statesOf s).getD ctx.defaults) ∧
      (u = ctx.regroup edge.target exprs extra ∨
        (ctx.applied (ctx.regroup edge.target exprs extra) edge.source edge.target
          ((ctx.possibleAt e).filter (·.isLeakRule))).result = some u) := by
  have hhanded : ∀ pairs exprs, v.lastSource pairs x = some s →
      (v.handOver pairs exprs).get? x = some ((v.statesOf s).getD ctx.defaults) := by
    intro pairs exprs hlast
    obtain ⟨-, t, ht⟩ := mem_of_lastSource hlast
    rw [get?_handOver_of_lastSource hlast, ht, Option.getD_some]
  have hf := isFeasible_of_result hu
  cases hk : edge.kind with
  | flow guard =>
    rw [transfer_flow he hf hk] at hu
    simp only [Program.sourceOf, hk] at hs
    obtain ⟨⟨target, source⟩, hcopy, hpair⟩ := Option.bind_eq_some_iff.1 hs
    split at hpair
    · rename_i hx
      obtain rfl : target = x := hx
      obtain rfl : source = s := Option.some.inj hpair
      refine ⟨_, _, ?_, (result_flow_cases hcopy hu).imp And.right And.right⟩
      rw [SortedMap.get?_insert, if_pos rfl]
    · cases hpair
  | enter =>
    have hflow : ∀ guard, edge.kind ≠ .flow guard := by simp [hk]
    rw [Program.sourceOf_eq_of_ne_flow hflow, if_neg (by simp [Program.resultOf, hk])] at hs
    obtain ⟨callee, result, args, hcallee, hcall, rfl⟩ := exists_of_enter he hk hu
    simp only [Program.handedAlong, Program.calleeOf, Program.callOf, hk, hcallee, hcall] at hs
    exact ⟨_, _, hhanded _ _ hs, .inl rfl⟩
  | leave call =>
    have hflow : ∀ guard, edge.kind ≠ .flow guard := by simp [hk]
    rw [Program.sourceOf_eq_of_ne_flow hflow] at hs
    obtain ⟨callee, result, args, hcallee, hcall, rfl⟩ := exists_of_leave he hk hu
    simp only [Program.resultOf, Program.handedAlong, Program.calleeOf, Program.callOf, hk, hcallee,
      hcall, Option.bind_some] at hs
    refine ⟨_, _, ?_, .inl rfl⟩
    rw [get?_handedBack]
    split at hs
    · rename_i hr
      rw [if_pos hr, returnedStates, hs, Option.bind_some]
    · rename_i hr
      rw [if_neg hr]
      exact hhanded _ _ hs
  | callToReturn | root =>
    have hflow : ∀ guard, edge.kind ≠ .flow guard := by simp [hk]
    rw [Program.sourceOf_eq_of_ne_flow hflow, if_neg (by simp [Program.resultOf, hk])] at hs
    have hmem := (mem_of_lastSource hs).1
    simp [Program.handedAlong, hk] at hmem

/-- A witness goes back to the expression that the states pass takes the states of another one from,
just if it finds that expression: what was copied is that expression and no member of it, or of
several parameters that the other one was passed for the first is the last with states. It does if
only one source hands over anything. -/
theorem exprBefore_eq_source_iff (he : ctx.program.edges[e]? = some edge)
    (hs : ctx.program.sourceOf v edge x = some s) :
    (∀ u, (ctx.transfer v e).result = some u →
      ∃ exprs extra, exprs.get? x = some ((v.statesOf s).getD ctx.defaults) ∧
        (u = ctx.regroup edge.target exprs extra ∨
          (ctx.applied (ctx.regroup edge.target exprs extra) edge.source edge.target
            ((ctx.possibleAt e).filter (·.isLeakRule))).result = some u)) ∧
    (ctx.program.exprBefore e x = s.simplify ↔ ctx.program.FindsSource edge x s) ∧
    ((∀ guard, edge.kind ≠ .flow guard) →
      (∀ y ∈ ctx.program.handedAlong edge, y.1 = x → y.2 = s) →
      ctx.program.exprBefore e x = s.simplify) := by
  have hiff := Program.exprBefore_iff he hs
  refine ⟨fun u hu => exists_exprs_of_source he hs hu, hiff, fun hflow honce => ?_⟩
  exact hiff.2 (Program.findsSource_of_once hflow hs honce)

end StatesContext

namespace Analysis

section Loading

/-- The program `p = malloc(8); x = p; ;`, or with `x = p.next;` instead of the copy. -/
def loading (member : Bool) : Program :=
  let node (kind : NodeKind) (stmt : Option Statement) : Node := ⟨some 0, kind, stmt, none⟩
  let value := if member then .field (allocation "p") "next" .pointer else allocation "p"
  { nodes := #[⟨none, .root, none, none⟩, node .entry none, node .exit none,
      node .statement (some (.call (some (allocation "p")) "malloc" [.lit 8])),
      node .statement (some (.assign (allocation "x") (.use value))),
      node .statement (some .nop)]
    edges := #[⟨1, 3, .flow .always⟩, ⟨3, 4, .flow .always⟩, ⟨4, 5, .flow .always⟩,
      ⟨5, 2, .flow .always⟩, ⟨0, 1, .root⟩]
    functions := #[⟨0, "main", [], [⟨"p", some 0, .localVar, .pointer⟩,
      ⟨"x", some 0, .localVar, .pointer⟩], 1, 2, none, none, none⟩]
    globals := [] }

/-- A witness goes from the copy back to the variable, which has the states of the copy. -/
theorem exprBefore_eq_source_iff_loading : ∃ a v u,
    solve (loading false) allocations 100 = .ok a ∧ a.states.value 4 = some v ∧
    (a.context.transfer v 2).result = some u ∧
    u.statesOf (allocation "x") = some (.singleton (.named "ptr.unknown")) ∧
    v.statesOf (allocation "p") = u.statesOf (allocation "x") ∧
    (loading false).sourceOf v ⟨4, 5, .flow .always⟩ (allocation "x") = some (allocation "p") ∧
    (loading false).exprBefore 2 (allocation "x") = allocation "p" := by
  obtain ⟨a, ha, htest⟩ := exists_eq_ok_of_any (solve (loading false) allocations 100)
    (fun a => (a.states.value 4).any fun v =>
      (a.context.transfer v 2).result.any fun u : NodeStates =>
        decide (u.statesOf (allocation "x") = some (.singleton (.named "ptr.unknown"))) &&
        decide (v.statesOf (allocation "p") = u.statesOf (allocation "x"))) (by decide +kernel)
  simp only [Option.any_eq_true, Bool.and_eq_true, decide_eq_true_eq] at htest
  obtain ⟨v, hv, u, hu, hx, hp⟩ := htest
  obtain ⟨facts, -, hctx, -⟩ := solve_eq_ok ha
  have hprogram : a.context.program = loading false := congrArg StatesContext.program hctx
  have he : a.context.program.edges[2]? = some ⟨4, 5, .flow .always⟩ := by
    rw [hprogram]
    rfl
  have hs : a.context.program.sourceOf v ⟨4, 5, .flow .always⟩ (allocation "x") =
      some (allocation "p") := by
    rw [hprogram]
    rfl
  obtain ⟨-, hiff, -⟩ := StatesContext.exprBefore_eq_source_iff he hs
  rw [hprogram] at hs hiff
  exact ⟨a, v, u, ha, hv, hu, hx, hp, hs, hiff.2 (.inl rfl)⟩

/-- From a member that is copied a witness does not go on to the variable, though the states are
those of the variable, and what it stays with has other ones. -/
theorem loading_stays_with_target : ∃ a v u, (loading true).WellFormed ∧
    solve (loading true) allocations 100 = .ok a ∧ a.states.value 4 = some v ∧
    (a.context.transfer v 2).result = some u ∧
    (loading true).sourceOf v ⟨4, 5, .flow .always⟩ (allocation "x") = some (allocation "p") ∧
    v.statesOf (allocation "p") = u.statesOf (allocation "x") ∧
    (loading true).exprBefore 2 (allocation "x") ≠ allocation "p" ∧
    v.statesOf ((loading true).exprBefore 2 (allocation "x")) ≠ u.statesOf (allocation "x") := by
  obtain ⟨a, ha, htest⟩ := exists_eq_ok_of_any (solve (loading true) allocations 100)
    (fun a => (a.states.value 4).any fun v =>
      (a.context.transfer v 2).result.any fun u : NodeStates =>
        decide (v.statesOf (allocation "p") = u.statesOf (allocation "x")) &&
        decide (v.statesOf (allocation "x") ≠ u.statesOf (allocation "x"))) (by decide +kernel)
  simp only [Option.any_eq_true, Bool.and_eq_true, decide_eq_true_eq] at htest
  obtain ⟨v, hv, u, hu, hp, hx⟩ := htest
  exact ⟨a, v, u, by decide, ha, hv, hu, rfl, hp, by decide, hx⟩

end Loading

end Analysis

end Typestate

import Typestate.Proofs.States.Globals
import Typestate.Proofs.States.Settled

/-!
# Arguments and their aliases

On a return an argument takes over the states of its parameter, and the class that it is in is
gathered anew from its members. A member that was not passed brings along the states from before the
call. If a member was passed twice, only what the last of its parameters hands over is left.
-/
namespace Typestate

namespace NodeStates

variable {v : NodeStates} {pairs : List (Expr × Expr)} {exprs : ExprStates} {c : EquivClass}
  {x : Expr} {t : State}

/-- The states that an expression is handed last. -/
def handedTo (v : NodeStates) (pairs : List (Expr × Expr)) (x : Expr) : Option States :=
  (pairs.filterMap fun y => if y.1 = x then v.statesOf y.2 else none).getLast?

theorem get?_handOver_eq : (v.handOver pairs exprs).get? x =
    (v.handedTo pairs x).or (exprs.get? x) := by
  unfold handOver handedTo
  induction pairs using List.reverseRecOn with
  | nil => rfl
  | append_singleton pairs y ih =>
    obtain ⟨target, source⟩ := y
    rw [List.foldl_append, List.foldl_cons, List.foldl_nil, List.filterMap_append]
    dsimp only
    cases hs : v.statesOf source with
    | none => simpa [hs] using ih
    | some s =>
      dsimp only
      rw [SortedMap.get?_insert]
      by_cases hx : x = target
      · simp [hx, hs]
      · simpa [hx, Ne.symm hx] using ih

/-- Whether a class is handed a state: a member is, by some pair. -/
def Hands (v : NodeStates) (pairs : List (Expr × Expr)) (c : EquivClass) (t : State) : Prop :=
  ∃ y ∈ pairs, y.1 ∈ c ∧ ∃ s, v.statesOf y.2 = some s ∧ t ∈ s

instance : Decidable (v.Hands pairs c t) :=
  inferInstanceAs (Decidable (∃ y ∈ pairs, y.1 ∈ c ∧ ∃ s ∈ v.statesOf y.2, t ∈ s))

/-- Whether a member of a class is handed a state last. -/
def HandsLast (v : NodeStates) (pairs : List (Expr × Expr)) (c : EquivClass) (t : State) : Prop :=
  ∃ x ∈ c, ∃ s, v.handedTo pairs x = some s ∧ t ∈ s

/-- Whether a member of a class that is handed nothing keeps a state. -/
def Keeps (v : NodeStates) (pairs : List (Expr × Expr)) (exprs : ExprStates) (c : EquivClass)
    (t : State) : Prop :=
  ∃ x ∈ c, v.handedTo pairs x = none ∧ exprs.MayBe x t

theorem exists_pair_of_handedTo {s : States} (h : v.handedTo pairs x = some s) :
    ∃ y ∈ pairs, y.1 = x ∧ v.statesOf y.2 = some s := by
  obtain ⟨y, hy, hs⟩ := List.mem_filterMap.1 (List.mem_of_getLast? h)
  split at hs
  · rename_i hx
    exact ⟨y, hy, hx, hs⟩
  · cases hs

theorem HandsLast.hands (h : v.HandsLast pairs c t) : v.Hands pairs c t := by
  obtain ⟨x, hx, s, hlast, ht⟩ := h
  obtain ⟨y, hy, rfl, hs⟩ := exists_pair_of_handedTo hlast
  exact ⟨y, hy, hx, s, hs, ht⟩

/-- The members of a class have the states that they are handed last, or keep theirs. -/
theorem exists_mayBe_handOver_iff : (∃ x ∈ c, (v.handOver pairs exprs).MayBe x t) ↔
    v.HandsLast pairs c t ∨ v.Keeps pairs exprs c t := by
  have hmay : ∀ x, (v.handOver pairs exprs).MayBe x t ↔
      (∃ s, v.handedTo pairs x = some s ∧ t ∈ s) ∨
        v.handedTo pairs x = none ∧ exprs.MayBe x t := by
    intro x
    unfold SortedMap.MayBe
    rw [get?_handOver_eq]
    cases v.handedTo pairs x <;> simp
  simp only [hmay, HandsLast, Keeps, and_or_left, exists_or]

theorem exists_mayBe_handOver (hv : v.map.Filled) (h : exprs.MayBe x t) :
    ∃ t', (v.handOver pairs exprs).MayBe x t' := by
  obtain ⟨s, hs, ht⟩ := h
  unfold SortedMap.MayBe
  rw [get?_handOver_eq]
  cases hlast : v.handedTo pairs x with
  | none => exact ⟨t, s, hs, ht⟩
  | some s' =>
    obtain ⟨y, -, -, hy⟩ := exists_pair_of_handedTo hlast
    obtain ⟨t', ht'⟩ := exists_mem_of_statesOf hv hy
    exact ⟨t', s', rfl, ht'⟩

end NodeStates

namespace StatesContext

open NodeStates

variable {ctx : StatesContext} {v u : NodeStates} {e : EdgeId} {edge : Edge} {call : NodeId}
  {callee : Function} {result : Option Expr} {args : List Expr} {c : EquivClass} {s : States}

/-- Behind a return each class at the target is gathered from what its members are handed or keep,
unless it holds the result. -/
theorem exists_exprs_of_leave (he : ctx.program.edges[e]? = some edge)
    (hk : edge.kind = .leave call) (hcallee : ctx.program.functionOf edge.source = some callee)
    (hcall : ctx.program.callAt call = some (result, args))
    (hu : (ctx.transfer v e).result = some u)
    (hresult : ∀ r, result = some r → r.simplify ∉ c) :
    ∃ exprs, u = ctx.regroup edge.target exprs
        ((v.without callee.id).carried (ctx.program.functionIdOf edge.target)) ∧
      ∀ x ∈ c, ∀ t, exprs.MayBe x t ↔ (v.handOver ((args.map Expr.simplify).zip callee.paramExprs)
        ((v.without callee.id).flatten (ctx.program.functionIdOf edge.target))).MayBe x t := by
  refine ⟨_, eq_regroup_of_leave he hk hcallee hcall hu, fun x hx t => ?_⟩
  have hother : result.map Expr.simplify ≠ some x := by
    intro hr
    obtain ⟨r, hsome, rfl⟩ := Option.map_eq_some_iff.1 hr
    exact hresult r hsome hx
  simp [mayBe_handedBack, hother]

/-- Behind a return a class that travelled through the callee, and that a member of was passed, is
in the states that its members are handed last by parameters, and in those that are kept by
members which are handed nothing. These are the states of all parameters that members were passed
for exactly if nothing else is kept, and if what an earlier parameter hands over is handed over
last or kept, too. -/
theorem transfer_passed_iff (he : ctx.program.edges[e]? = some edge)
    (hk : edge.kind = .leave call) (hcallee : ctx.program.functionOf edge.source = some callee)
    (hcall : ctx.program.callAt call = some (result, args))
    (hu : (ctx.transfer v e).result = some u) (hv : v.map.Filled) (hc : v.map.get? c = some s)
    (howner : EquivClass.owner c ≠ some callee.id)
    (hscope : EquivClass.isInScope c (ctx.program.functionIdOf edge.target) = true)
    (htarget : c ∈ ctx.classesAt edge.target) (hpassed : ∃ a ∈ args, a.simplify ∈ c)
    (hresult : ∀ r, result = some r → r.simplify ∉ c) :
    let pairs := (args.map Expr.simplify).zip callee.paramExprs
    let kept := (v.without callee.id).flatten (ctx.program.functionIdOf edge.target)
    (∀ t, u.map.MayBe c t ↔ v.HandsLast pairs c t ∨ v.Keeps pairs kept c t) ∧
    ((∀ t, u.map.MayBe c t ↔ v.Hands pairs c t) ↔
      (∀ t, v.Keeps pairs kept c t → v.Hands pairs c t) ∧
        ∀ t, v.Hands pairs c t → v.HandsLast pairs c t ∨ v.Keeps pairs kept c t) := by
  intro pairs kept
  have hexact : ∀ t, u.map.MayBe c t ↔ v.HandsLast pairs c t ∨ v.Keeps pairs kept c t := by
    intro t
    obtain ⟨exprs, rfl, hexprs⟩ := exists_exprs_of_leave he hk hcallee hcall hu hresult
    rw [mayBe_regroup_iff, and_iff_right htarget, ← exists_mayBe_handOver_iff]
    have hcarried : ¬ ((v.without callee.id).carried
        (ctx.program.functionIdOf edge.target)).MayBe c t := by
      rintro ⟨s, hs, -⟩
      rw [get?_carried, if_pos hscope] at hs
      cases hs
    rw [or_iff_left hcarried, mem_gather, or_iff_left ?_]
    · exact exists_congr fun x => and_congr_right fun hx => hexprs x hx t
    · rintro ⟨hnone, -⟩
      obtain ⟨a, -, ha⟩ := hpassed
      obtain ⟨t', ht'⟩ := hv.exists_mayBe_iff.2 ⟨s, hc⟩
      have hkept : kept.MayBe a.simplify t' :=
        mayBe_flatten.2 ⟨c, ha, hscope, mayBe_without.2 ⟨howner, ht'⟩⟩
      obtain ⟨t'', ht''⟩ := exists_mayBe_handOver hv hkept
      exact hnone _ ha t'' ((hexprs _ ha t'').2 ht'')
  refine ⟨hexact, ?_⟩
  constructor
  · intro heq
    exact ⟨fun t ht => (heq t).1 ((hexact t).2 (.inr ht)),
      fun t ht => (hexact t).1 ((heq t).2 ht)⟩
  · rintro ⟨hkept, hlast⟩ t
    rw [hexact]
    exact ⟨fun ht => ht.elim HandsLast.hands (hkept t), hlast t⟩

end StatesContext

namespace Analysis

def delegate : Variable := ⟨"a", some 1, .param, .pointer⟩

def secondDelegate : Variable := ⟨"b", some 1, .param, .pointer⟩

def delegated (both : Bool) : List (Expr × Expr) :=
  (allocation "x", .var delegate) :: if both then [(allocation "y", .var secondDelegate)] else []

/-- The program `main() { x = malloc(8); y = x; f(x); }` with `f(a) { free(a); }`, or with
`f(x, y);` and `f(a, b) { b = malloc(8); free(a); }`. -/
def delegating (both : Bool) : Program :=
  let node (f : FunctionId) (kind : NodeKind) (stmt : Option Statement) : Node :=
    ⟨some f, kind, stmt, none⟩
  { nodes := #[⟨none, .root, none, none⟩, node 0 .entry none, node 0 .exit none,
      node 1 .entry none, node 1 .exit none,
      node 0 .statement (some (.call (some (allocation "x")) "malloc" [.lit 8])),
      node 0 .statement (some (.assign (allocation "y") (.use (allocation "x")))),
      node 0 .call (some (.call none "f" ((delegated both).map Prod.fst))), node 0 .returnSite none,
      node 1 .statement (some (.call none "free" [.var delegate]))] ++
      if both then
        #[node 1 .statement (some (.call (some (.var secondDelegate)) "malloc" [.lit 8]))]
      else #[]
    edges := #[⟨7, 3, .enter⟩, ⟨7, 8, .callToReturn⟩, ⟨4, 8, .leave 7⟩, ⟨1, 5, .flow .always⟩,
      ⟨5, 6, .flow .always⟩, ⟨6, 7, .flow .always⟩, ⟨8, 2, .flow .always⟩, ⟨9, 4, .flow .always⟩,
      ⟨0, 1, .root⟩] ++
      if both then #[⟨3, 10, .flow .always⟩, ⟨10, 9, .flow .always⟩] else #[⟨3, 9, .flow .always⟩]
    functions := #[⟨0, "main", [], [⟨"x", some 0, .localVar, .pointer⟩,
      ⟨"y", some 0, .localVar, .pointer⟩], 1, 2, none, none, none⟩,
      ⟨1, "f", delegate :: if both then [secondDelegate] else [], [], 3, 4, none, none, none⟩]
    globals := [] }

/-- The class of `x` and its alias. -/
def aliased : EquivClass := .ofList [allocation "x", allocation "y"]

/-- If `y` is passed too, the class of both is in the states of both parameters after the call. -/
theorem transfer_passed_iff_delegating : ∃ a v u s, solve (delegating true) frees 100 = .ok a ∧
    a.states.value 4 = some v ∧ (a.context.transfer v 2).result = some u ∧
    v.map.get? aliased = some s ∧ v.Hands (delegated true) aliased (.named "ptr.freed") ∧
    v.Hands (delegated true) aliased (.named "ptr.unknown") ∧
    ∀ t, u.map.MayBe aliased t ↔ v.Hands (delegated true) aliased t := by
  obtain ⟨a, ha, htest⟩ := exists_eq_ok_of_any (solve (delegating true) frees 100)
    (fun a => (a.states.value 4).any fun v => (a.context.transfer v 2).result.isSome &&
      (v.map.get? aliased).isSome && decide (aliased ∈ a.context.classesAt 8) &&
      (decide (v.Hands (delegated true) aliased (.named "ptr.freed")) &&
        decide (v.Hands (delegated true) aliased (.named "ptr.unknown")) &&
        ((v.statesOf (.var delegate)).isSome && (v.statesOf (.var secondDelegate)).isSome)))
    (by decide +kernel)
  obtain ⟨v, hv, htest⟩ := (Option.any_eq_true _ _).1 htest
  simp only [Bool.and_eq_true, decide_eq_true_eq, Option.isSome_iff_exists] at htest
  obtain ⟨⟨⟨⟨u, hu⟩, s, hs⟩, hclass⟩, ⟨hfreed, hunknown⟩, ⟨s₁, hs₁⟩, s₂, hs₂⟩ := htest
  refine ⟨a, v, u, s, ha, hv, hu, hs, hfreed, hunknown, ?_⟩
  have hfilled := filled_of_solve (by decide) ha hv
  obtain ⟨facts, -, hctx, -⟩ := solve_eq_ok ha
  rw [hctx] at hu hclass
  have hx : allocation "x" ∈ aliased := by decide
  have hy : allocation "y" ∈ aliased := by decide
  have he : (StatesContext.of (delegating true) frees facts).program.edges[2]? =
      some ⟨4, 8, .leave 7⟩ := rfl
  have howner : EquivClass.owner aliased ≠ some 1 := by decide
  have hscope : EquivClass.isInScope aliased (some 0) = true := by decide
  obtain ⟨-, hiff⟩ := StatesContext.transfer_passed_iff he rfl rfl rfl hu hfilled hs
    howner hscope hclass ⟨_, List.mem_cons_self, hx⟩ (fun _ hr => by cases hr)
  have hlastx : v.handedTo (delegated true) (allocation "x") = some s₁ := by
    simp [NodeStates.handedTo, delegated, hs₁, allocation]
  have hlasty : v.handedTo (delegated true) (allocation "y") = some s₂ := by
    simp [NodeStates.handedTo, delegated, hs₂, allocation]
  refine hiff.2 ⟨?_, ?_⟩
  · rintro t ⟨z, hz, hnone, -⟩
    rcases List.mem_cons.1 (SortedSet.mem_ofList.1 hz) with rfl | hz
    · cases hlastx.symm.trans hnone
    · obtain rfl := List.mem_singleton.1 hz
      cases hlasty.symm.trans hnone
  · rintro t ⟨z, hz, -, s', hs', ht⟩
    rcases List.mem_cons.1 hz with rfl | hz
    · obtain rfl := Option.some.inj (hs₁.symm.trans hs')
      exact .inl ⟨_, hx, s₁, hlastx, ht⟩
    · obtain rfl := List.mem_singleton.1 hz
      obtain rfl := Option.some.inj (hs₂.symm.trans hs')
      exact .inl ⟨_, hy, s₂, hlasty, ht⟩

/-- If only `x` is passed, it is still in the state from before the call afterwards, which
is not one of the parameter. -/
theorem delegating_keeps_alias : ∃ a v u callee args c s t, (delegating false).WellFormed ∧
    solve (delegating false) frees 100 = .ok a ∧ a.states.value 4 = some v ∧
    (delegating false).edges[2]? = some ⟨4, 8, .leave 7⟩ ∧
    (delegating false).functionOf 4 = some callee ∧
    (delegating false).callAt 7 = some (none, args) ∧
    (a.context.transfer v 2).result = some u ∧ v.map.get? c = some s ∧
    c ∈ a.context.classesAt 8 ∧ (∃ x ∈ args, x.simplify ∈ c) ∧
    (∀ x ∈ c, ∀ y ∈ x.vars, y.owner = some 0) ∧
    u.map.MayBe c t ∧ ¬ v.Hands ((args.map Expr.simplify).zip callee.paramExprs) c t := by
  obtain ⟨a, ha, htest⟩ := exists_eq_ok_of_any (solve (delegating false) frees 100)
    (fun a => (a.states.value 4).any fun v => (a.context.transfer v 2).result.any fun u =>
      v.map.entries.any fun y => decide (y.1 ∈ a.context.classesAt 8) &&
        decide (allocation "x" ∈ y.1) && decide (∀ x ∈ y.1, ∀ z ∈ x.vars, z.owner = some 0) &&
        (u.map.get? y.1).any fun s => s.toList.any fun t =>
          decide ¬ v.Hands (delegated false) y.1 t) (by decide +kernel)
  simp only [Option.any_eq_true, List.any_eq_true, Bool.and_eq_true, decide_eq_true_eq] at htest
  obtain ⟨v, hv, u, hu, ⟨c, s⟩, hcs, ⟨⟨hc, hx⟩, hown⟩, s', hs', t, ht, hnot⟩ := htest
  exact ⟨a, v, u, _, _, c, s, t, by decide, ha, hv, rfl, rfl, rfl, hu,
    SortedMap.mem_entries_iff.1 hcs, hc, ⟨_, List.mem_singleton.2 rfl, hx⟩, hown, ⟨s', hs', ht⟩,
    hnot⟩

end Analysis

end Typestate

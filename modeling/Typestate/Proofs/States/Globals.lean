import Typestate.Proofs.States.Stored

/-!
# Globals across calls

A class of globals is in scope on both sides of a call and of a return, so a global keeps its
states unless the call hands it others. This is different for a global that is known to equal a
local, since then the local tells to which function the class belongs. Such a class is left with
the caller on a call, is dropped with the callee on a return, and returns with the caller's other
classes, out of date, where it had been left.
-/
namespace Typestate

namespace Program

variable (p : Program)

/-- The function that an edge enters or returns from. -/
def calleeOf (edge : Edge) : Option Function :=
  match edge.kind with
  | .enter => p.functionOf edge.target
  | .leave _ => p.functionOf edge.source
  | _ => none

/-- The result and the arguments of the call that an edge makes or returns from. -/
def callOf (edge : Edge) : Option (Option Expr × List Expr) :=
  match edge.kind with
  | .enter => p.callAt edge.source
  | .leave call => p.callAt call
  | _ => none

end Program

namespace NodeStates

variable {v : NodeStates} {pairs : List (Expr × Expr)} {exprs : ExprStates} {e : Expr} {t : State}

theorem mayBe_without {f : FunctionId} {c : EquivClass} :
    (v.without f).map.MayBe c t ↔ EquivClass.owner c ≠ some f ∧ v.map.MayBe c t := by
  unfold SortedMap.MayBe
  rw [get?_without]
  split <;> simp [*]

theorem mayBe_handOver (h : (v.handOver pairs exprs).MayBe e t) :
    (∃ x s, (e, x) ∈ pairs ∧ v.statesOf x = some s ∧ t ∈ s) ∨ exprs.MayBe e t := by
  unfold handOver at h
  induction pairs generalizing exprs with
  | nil => exact .inr h
  | cons y pairs ih =>
    obtain ⟨target, source⟩ := y
    rcases ih h with ⟨x, s, hx, hs, ht⟩ | h
    · exact .inl ⟨x, s, List.mem_cons_of_mem _ hx, hs, ht⟩
    · dsimp only at h
      cases hs : v.statesOf source with
      | none =>
        rw [hs] at h
        exact .inr h
      | some s =>
        rw [hs, SortedMap.mayBe_insert] at h
        split at h
        · rename_i he
          exact .inl ⟨source, s, by simp [he], hs, h⟩
        · exact .inr h

end NodeStates

namespace StatesContext

open NodeStates

variable {ctx : StatesContext} {v u : NodeStates} {e : EdgeId} {edge : Edge} {callee : Function}
  {result : Option Expr} {args : List Expr} {t : State}

/-- Where an expression takes a state from that it has after a call is made or returned from. -/
inductive Contributes (ctx : StatesContext) (v : NodeStates) (edge : Edge) (callee : Function)
    (result : Option Expr) (args : List Expr) : Expr → State → Prop
  /-- A class in scope at the target and not of the callee holds the expression. -/
  | own {c x t} (hx : x ∈ c) (howner : EquivClass.owner c ≠ some callee.id)
      (hscope : EquivClass.isInScope c (ctx.program.functionIdOf edge.target) = true)
      (ht : v.map.MayBe c t) : Contributes ctx v edge callee result args x t
  /-- A parameter has the states of its argument. -/
  | param {x arg s t} (hk : edge.kind = .enter) (hx : (x, arg) ∈ callee.paramExprs.zip args)
      (hs : v.statesOf arg = some s) (ht : t ∈ s) : Contributes ctx v edge callee result args x t
  /-- An argument has the states of its parameter. -/
  | arg {call x y s t} (hk : edge.kind = .leave call)
      (hx : (x, y) ∈ (args.map Expr.simplify).zip callee.paramExprs)
      (hs : v.statesOf y = some s) (ht : t ∈ s) : Contributes ctx v edge callee result args x t
  /-- The result has the states of the returned value. -/
  | result {call r t} (hk : edge.kind = .leave call) (hr : result = some r)
      (ht : t ∈ ctx.returnedStates v callee) :
      Contributes ctx v edge callee result args r.simplify t

theorem contributes_of_mayBe_flatten {x : Expr}
    (h : ((v.without callee.id).flatten (ctx.program.functionIdOf edge.target)).MayBe x t) :
    ctx.Contributes v edge callee result args x t := by
  obtain ⟨c, hx, hscope, ht⟩ := mayBe_flatten.1 h
  obtain ⟨howner, ht⟩ := mayBe_without.1 ht
  exact .own hx howner hscope ht

/-- Behind a call or a return each class at the target has the states that its members take from
somewhere, and an expression that nothing is handed over to takes them from the classes that hold
it. -/
theorem exists_exprs_of_callee (hwf : ctx.program.WellFormed)
    (he : ctx.program.edges[e]? = some edge) (hcallee : ctx.program.calleeOf edge = some callee)
    (hcall : ctx.program.callOf edge = some (result, args))
    (hu : (ctx.transfer v e).result = some u) :
    ∃ exprs, u = ctx.regroup edge.target exprs
        ((v.without callee.id).carried (ctx.program.functionIdOf edge.target)) ∧
      (∀ x t, exprs.MayBe x t → ctx.Contributes v edge callee result args x t) ∧
      ∀ x, x ∉ callee.paramExprs → (∀ a ∈ args, a.simplify ≠ x) →
        (∀ r, result = some r → r.simplify ≠ x) → exprs.get? x =
          ((v.without callee.id).flatten (ctx.program.functionIdOf edge.target)).get? x := by
  cases hk : edge.kind with
  | flow | callToReturn | root => simp [Program.calleeOf, hk] at hcallee
  | enter =>
    simp only [Program.calleeOf, Program.callOf, hk] at hcallee hcall
    obtain ⟨callee', result', args', hcallee', hcall', rfl⟩ := exists_of_enter he hk hu
    obtain rfl := Option.some.inj (hcallee.symm.trans hcallee')
    obtain ⟨rfl, rfl⟩ := Prod.mk.inj (Option.some.inj (hcall.symm.trans hcall'))
    rw [← hwf.functionIdOf_eq hcallee]
    refine ⟨_, rfl, fun x t ht => ?_, fun x hx _ _ => ?_⟩
    · rcases mayBe_handOver ht with ⟨y, s, hy, hs, ht⟩ | ht
      · exact .param hk hy hs ht
      · exact contributes_of_mayBe_flatten ht
    · exact get?_handOver fun y hy h => hx (h ▸ (List.of_mem_zip hy).1)
  | leave call =>
    simp only [Program.calleeOf, Program.callOf, hk] at hcallee hcall
    refine ⟨_, eq_regroup_of_leave he hk hcallee hcall hu, fun x t ht => ?_,
      fun x _ hargs hresult => get?_handedBack_of_ne hargs hresult⟩
    rcases mayBe_handedBack.1 ht with ⟨hr, hmem⟩ | ⟨-, hmay⟩
    · obtain ⟨r, hresult, rfl⟩ := Option.map_eq_some_iff.1 hr
      exact .result hk hresult hmem
    · rcases mayBe_handOver hmay with ⟨y, s, hy, hs, ht⟩ | hmay
      · exact .arg hk hy hs ht
      · exact contributes_of_mayBe_flatten hmay

section Global

variable {p : Program} {a : Automaton} {facts : FactsSolution} {y : Variable} {c : EquivClass}

/-- Whether a call neither passes a global nor assigns to it. -/
def Unpassed (y : Variable) (result : Option Expr) (args : List Expr) : Prop :=
  (∀ x ∈ args, x.simplify ≠ .var y) ∧ ∀ r, result = some r → r.simplify ≠ .var y

/-- Whether a global may be in a state in a class that had been left with the function at the
target of an edge. -/
def Returns (p : Program) (v : NodeStates) (edge : Edge) (callee : Function) (y : Variable)
    (t : State) : Prop :=
  ∃ c f, .var y ∈ c ∧ EquivClass.owner c = some f ∧ p.functionIdOf edge.target = some f ∧
    f ≠ callee.id ∧ v.map.MayBe c t

theorem not_mem_paramExprs_of_global (hwf : p.WellFormed) {n : NodeId}
    (hcallee : p.functionOf n = some callee) (hy : y.owner = none) :
    .var y ∉ callee.paramExprs := by
  intro hmem
  obtain ⟨i, -, hi⟩ := Option.bind_eq_some_iff.1 hcallee
  obtain ⟨x, hx, hxy⟩ := List.mem_map.1 hmem
  have howner := (hwf.functions i callee hi).2 x (List.mem_append_left _ hx)
  rw [Expr.var.inj hxy, hy] at howner
  cases howner

/-- A global comes into scope in its class at the source, if that is one of globals, or in a class
that returns. -/
theorem mayBe_or_returns {s : States} (hv : (StatesContext.of p a facts).Shaped edge.source v)
    (hc : v.map.get? c = some s) (hyc : .var y ∈ c)
    (hscope : EquivClass.isInScope c (p.functionIdOf edge.source) = true)
    (h : ((v.without callee.id).flatten (p.functionIdOf edge.target)).MayBe (.var y) t) :
    EquivClass.owner c = none ∧ v.map.MayBe c t ∨ Returns p v edge callee y t := by
  obtain ⟨c', hyc', hscope', hrest⟩ := mayBe_flatten.1 h
  obtain ⟨hother, s', hs', ht⟩ := mayBe_without.1 hrest
  cases howner : EquivClass.owner c' with
  | none =>
    have hsource : EquivClass.isInScope c' (p.functionIdOf edge.source) = true := by
      simp [EquivClass.isInScope, howner]
    obtain rfl := disjoint_classesAt_of (hv.scope hc hscope) (hv.scope hs' hsource) hyc hyc'
    exact .inl ⟨howner, s', hs', ht⟩
  | some f =>
    have htarget : p.functionIdOf edge.target = some f := by
      simpa [EquivClass.isInScope, howner, eq_comm] using hscope'
    refine .inr ⟨c', f, hyc', howner, htarget, fun hf => ?_, s', hs', ht⟩
    exact hother (howner.trans (congrArg some hf))

variable (hwf : p.WellFormed) (he : p.edges[e]? = some edge)
  (hcallee : p.calleeOf edge = some callee) (hcall : p.callOf edge = some (result, args))
  (hy : .var y ∈ p.trackedGlobals a.stateful) (hargs : Unpassed y result args)
  (hu : ((StatesContext.of p a facts).transfer v e).result = some u)
include hwf he hcallee hcall hy hargs hu

/-- Behind a call or a return a global has a class. There it has the states of the classes that
hold it and come into scope, and is in no others but those of other members of its class. -/
theorem exists_class_of_global :
    ∃ d ∈ (StatesContext.of p a facts).classesAt edge.target, .var y ∈ d ∧
      (∀ t, ((v.without callee.id).flatten (p.functionIdOf edge.target)).MayBe (.var y) t →
        u.map.MayBe d t) ∧
      (EquivClass.isInScope d (p.functionIdOf edge.target) = true → ∀ t, u.map.MayBe d t →
        ((v.without callee.id).flatten (p.functionIdOf edge.target)).MayBe (.var y) t ∨
        (∃ x ∈ d, x ≠ .var y ∧
          (StatesContext.of p a facts).Contributes v edge callee result args x t) ∨
        (∀ t', ¬ ((v.without callee.id).flatten (p.functionIdOf edge.target)).MayBe (.var y) t') ∧
          t = a.default) := by
  obtain ⟨exprs, rfl, hexprs, hkept⟩ := exists_exprs_of_callee hwf he hcallee hcall hu
  have hfacts := facts_of_isFeasible he (isFeasible_of_result hu)
  obtain ⟨d, hd, hyd⟩ := exists_mem_classesAt_of
    (hwf.targets edge (Array.mem_of_getElem? he)) hfacts hy
  have howner : y.owner = none := by
    obtain ⟨x, hx, hxy⟩ := List.mem_map.1 (List.mem_filter.1 hy).1
    exact Expr.var.inj hxy ▸ hwf.globals x hx
  have hparam : .var y ∉ callee.paramExprs := by
    cases hk : edge.kind with
    | flow | callToReturn | root => simp [Program.calleeOf, hk] at hcallee
    | enter | leave =>
      simp only [Program.calleeOf, hk] at hcallee
      exact not_mem_paramExprs_of_global hwf hcallee howner
  have hown : ∀ t, exprs.MayBe (.var y) t ↔
      ((v.without callee.id).flatten (p.functionIdOf edge.target)).MayBe (.var y) t := by
    intro t
    rw [SortedMap.MayBe, hkept _ hparam hargs.1 hargs.2]
    rfl
  refine ⟨d, hd, hyd, fun t ht => ?_, fun hscope t ht => ?_⟩
  · exact mayBe_regroup_iff.2 (.inl ⟨hd, mem_gather.2 (.inl ⟨.var y, hyd, (hown t).2 ht⟩)⟩)
  · rcases mayBe_regroup_iff.1 ht with ⟨-, ht⟩ | ⟨s, hs, -⟩
    · rcases mem_gather.1 ht with ⟨x, hx, ht⟩ | ⟨hnone, ht⟩
      · by_cases hxy : x = .var y
        · exact .inl ((hown t).1 (hxy ▸ ht))
        · exact .inr (.inl ⟨x, hx, hxy, hexprs x t ht⟩)
      · exact .inr (.inr ⟨fun t' ht' => hnone _ hyd t' ((hown t').2 ht'), ht⟩)
    · rw [get?_carried] at hs
      cases (if_pos hscope).symm.trans hs

variable {s : States} (hv : (StatesContext.of p a facts).Shaped edge.source v)
  (hc : v.map.get? c = some s) (hyc : .var y ∈ c)
include hv hc hyc

/-- A global keeps its states on a call and on a return that has nothing to do with it, as long as
its class is one of globals. It is in a further state there only if another member of its class is,
or if a class returns that held it once. -/
theorem transfer_keeps_global (hglobal : EquivClass.owner c = none) :
    ∃ d ∈ (StatesContext.of p a facts).classesAt edge.target, .var y ∈ d ∧
      (∀ t, v.map.MayBe c t → u.map.MayBe d t) ∧
      (EquivClass.isInScope d (p.functionIdOf edge.target) = true → ∀ t, u.map.MayBe d t →
        v.map.MayBe c t ∨
        (∃ x ∈ d, x ≠ .var y ∧
          (StatesContext.of p a facts).Contributes v edge callee result args x t) ∨
        Returns p v edge callee y t) := by
  have hscope : ∀ f, EquivClass.isInScope c f = true := by simp [EquivClass.isInScope, hglobal]
  have hover : ∀ t, v.map.MayBe c t →
      ((v.without callee.id).flatten (p.functionIdOf edge.target)).MayBe (.var y) t := by
    intro t ht
    refine mayBe_flatten.2 ⟨c, hyc, hscope _, mayBe_without.2 ⟨?_, ht⟩⟩
    simp [hglobal]
  obtain ⟨d, hd, hyd, hkeeps, honly⟩ :=
    exists_class_of_global hwf he hcallee hcall hy hargs hu
  refine ⟨d, hd, hyd, fun t ht => hkeeps t (hover t ht), fun hd t ht => ?_⟩
  rcases honly hd t ht with ht | ht | ⟨hnone, -⟩
  · rcases mayBe_or_returns hv hc hyc (hscope _) ht with ⟨-, ht⟩ | ht
    · exact .inl ht
    · exact .inr (.inr ht)
  · exact .inr (.inl ht)
  · obtain ⟨t', ht'⟩ := hv.nonempty hc
    exact absurd (hover t' ⟨s, hc, ht'⟩) (hnone t')

end Global

end StatesContext

namespace Analysis

section Sharing

def shared : Variable := ⟨"g", none, .global, .pointer⟩

/-- The program `main() { g = malloc(8); f(); }` with `f() { y = g; }`, or with a function `f` that
does nothing. -/
def sharing (shares : Bool) : Program :=
  let y : Variable := ⟨"y", some 1, .localVar, .pointer⟩
  let node (f : FunctionId) (kind : NodeKind) (stmt : Option Statement) : Node :=
    ⟨some f, kind, stmt, none⟩
  { nodes := #[⟨none, .root, none, none⟩, node 0 .entry none, node 0 .exit none,
      node 1 .entry none, node 1 .exit none,
      node 0 .statement (some (.call (some (.var shared)) "malloc" [.lit 8])),
      node 0 .call (some (.call none "f" [])), node 0 .returnSite none,
      node 1 .statement (some (if shares then .assign (.var y) (.use (.var shared)) else .nop))]
    edges := #[⟨6, 3, .enter⟩, ⟨6, 7, .callToReturn⟩, ⟨4, 7, .leave 6⟩, ⟨1, 5, .flow .always⟩,
      ⟨5, 6, .flow .always⟩, ⟨7, 2, .flow .always⟩, ⟨3, 8, .flow .always⟩, ⟨8, 4, .flow .always⟩,
      ⟨0, 1, .root⟩]
    functions := #[⟨0, "main", [], [], 1, 2, none, none, none⟩,
      ⟨1, "f", [], [y], 3, 4, none, none, none⟩]
    globals := [shared] }

/-- Where `f` does nothing the global is after the call in the states that it has at its end. -/
theorem transfer_keeps_global_sharing : ∃ a v u c d, solve (sharing false) allocations 100 = .ok a ∧
    a.states.value 4 = some v ∧ (a.context.transfer v 2).result = some u ∧
    .var shared ∈ c ∧ (∃ t, v.map.MayBe c t) ∧
    d ∈ a.context.classesAt 7 ∧ .var shared ∈ d ∧ ∀ t, v.map.MayBe c t → u.map.MayBe d t := by
  have hwf : (sharing false).WellFormed := by decide
  obtain ⟨a, ha, htest⟩ := exists_eq_ok_of_any (solve (sharing false) allocations 100)
    (fun a => (a.states.value 4).any fun v => (a.context.transfer v 2).result.isSome &&
      (v.map.get? (.singleton (.var shared))).isSome) (by decide +kernel)
  obtain ⟨v, hv, htest⟩ := (Option.any_eq_true _ _).1 htest
  obtain ⟨hresult, hclass⟩ := Bool.and_eq_true_iff.1 htest
  obtain ⟨u, hu⟩ := Option.isSome_iff_exists.1 hresult
  obtain ⟨s, hs⟩ := Option.isSome_iff_exists.1 hclass
  obtain ⟨facts, -, hctx, hsolve⟩ := solve_eq_ok ha
  rw [hctx] at hu hsolve
  have hshaped := (StatesContext.preserves_shaped hwf).solve hsolve hv
  have hmem : Expr.var shared ∈ SortedSet.singleton (.var shared) := SortedSet.mem_singleton.2 rfl
  have hedge : (sharing false).edges[2]? = some ⟨4, 7, .leave 6⟩ := rfl
  obtain ⟨d, hd, hgd, hkeeps, -⟩ := StatesContext.transfer_keeps_global hwf hedge rfl rfl
    (by decide) ⟨nofun, nofun⟩ hu hshaped hs hmem rfl
  obtain ⟨t, ht⟩ := hshaped.nonempty hs
  rw [← hctx] at hu hd
  exact ⟨a, v, u, _, d, ha, hv, hu, hmem, ⟨t, s, hs, ht⟩, hd, hgd, hkeeps⟩

/-- After `y = g` the global is in one class with a local of `f`. It is dropped on the return, and
there the global is not in the state that it was in. -/
theorem sharing_forgets_global : ∃ a v u c s, (sharing true).WellFormed ∧
    solve (sharing true) allocations 100 = .ok a ∧ a.states.value 4 = some v ∧
    a.context.Shaped 4 v ∧ (a.context.transfer v 2).result = some u ∧
    .var shared ∈ (sharing true).trackedGlobals allocations.stateful ∧
    (sharing true).callOf ⟨4, 7, .leave 6⟩ = some (none, []) ∧
    v.map.get? c = some s ∧ .var shared ∈ c ∧
    EquivClass.isInScope c ((sharing true).functionIdOf 4) = true ∧
    ∀ d ∈ a.context.classesAt 7, .var shared ∈ d → ∃ t ∈ s, ¬ u.map.MayBe d t := by
  have hwf : (sharing true).WellFormed := by decide
  obtain ⟨a, ha, htest⟩ := exists_eq_ok_of_any (solve (sharing true) allocations 100)
    (fun a => (a.states.value 4).any fun v => (a.context.transfer v 2).result.any fun u =>
      v.map.entries.any fun y => decide (.var shared ∈ y.1) &&
        EquivClass.isInScope y.1 ((sharing true).functionIdOf 4) &&
        (a.context.classesAt 7).toList.all fun d =>
          y.2.toList.any fun t => (u.map.get? d).all (t ∉ ·)) (by decide +kernel)
  obtain ⟨v, hv, htest⟩ := (Option.any_eq_true _ _).1 htest
  obtain ⟨u, hu, htest⟩ := (Option.any_eq_true _ _).1 htest
  obtain ⟨⟨c, s⟩, hcs, htest⟩ := List.any_eq_true.1 htest
  simp only [Bool.and_eq_true, decide_eq_true_eq] at htest
  obtain ⟨⟨hc, hscope⟩, hlost⟩ := htest
  obtain ⟨facts, -, hctx, hsolve⟩ := solve_eq_ok ha
  have hprogram : a.context.program.WellFormed := by
    rw [hctx]
    exact hwf
  refine ⟨a, v, u, c, s, hwf, ha, hv, (StatesContext.preserves_shaped hprogram).solve hsolve hv, hu,
    by decide, rfl, SortedMap.mem_entries_iff.1 hcs, hc, hscope, fun d hd _ => ?_⟩
  obtain ⟨t, ht, hnot⟩ := List.any_eq_true.1 (List.all_eq_true.1 hlost d hd)
  refine ⟨t, ht, ?_⟩
  rintro ⟨s', hs', ht'⟩
  rw [hs'] at hnot
  simp [ht'] at hnot

end Sharing

end Analysis

end Typestate

import Typestate.Proofs.States.Firing

/-!
# Threads along edges

An edge that can be taken carries every value at its source to one at its target, thread by
thread; one that cannot carries nothing. So the solution of the states pass has the shape of
each node, and at the root it is what the pass starts with.
-/
namespace Typestate

namespace StatesContext

variable {ctx : StatesContext} {n n' : NodeId} {v w : NodeStates} {e : EdgeId} {edge : Edge}

theorem transfer_of_not_feasible (h : ctx.isFeasible e = false) :
    ctx.transfer v e = .blocked := by
  unfold transfer
  split
  · rfl
  · simp [h]

theorem transfer_root (he : ctx.program.edges[e]? = some edge) (hf : ctx.isFeasible e = true)
    (hk : edge.kind = .root) : ctx.transfer v e = .quiet (ctx.pass v edge.target) := by
  simp [transfer, he, hf, hk]

theorem transfer_flow (he : ctx.program.edges[e]? = some edge) (hf : ctx.isFeasible e = true)
    {guard : Guard} (hk : edge.kind = .flow guard) :
    ctx.transfer v e = ctx.flow v e edge.source edge.target := by
  simp [transfer, he, hf, hk]

/-- What an edge does with values: it blocks them, or does what its kind tells. -/
inductive Conducts (ctx : StatesContext) (e : EdgeId) : Prop
  | blocked (h : ∀ v, ctx.transfer v e = .blocked)
  | root {edge : Edge} (he : ctx.program.edges[e]? = some edge) (hk : edge.kind = .root)
      (h : ∀ v, ctx.transfer v e = .quiet (ctx.pass v edge.target))
  | enter {edge : Edge} (he : ctx.program.edges[e]? = some edge) (hk : edge.kind = .enter)
      (h : ∀ v, ctx.transfer v e = .quiet (ctx.enter v edge.source edge.target))
  | leave {edge : Edge} {call : NodeId} (he : ctx.program.edges[e]? = some edge)
      (hk : edge.kind = .leave call)
      (h : ∀ v, ctx.transfer v e = .quiet (ctx.leave v edge.source edge.target call))
  | flow {edge : Edge} {guard : Guard} (he : ctx.program.edges[e]? = some edge)
      (hf : ctx.isFeasible e = true) (hk : edge.kind = .flow guard)
      (h : ∀ v, ctx.transfer v e = ctx.flow v e edge.source edge.target)

theorem conducts (ctx : StatesContext) (e : EdgeId) : ctx.Conducts e := by
  cases he : ctx.program.edges[e]? with
  | none => exact .blocked fun v => by simp [transfer, he]
  | some edge =>
    cases hf : ctx.isFeasible e with
    | false => exact .blocked fun v => transfer_of_not_feasible hf
    | true =>
      cases hk : edge.kind with
      | callToReturn => exact .blocked fun v => by simp [transfer, he, hf, hk]
      | root => exact .root he hk fun v => transfer_root he hf hk
      | enter => exact .enter he hk fun v => by simp [transfer, he, hf, hk]
      | leave call => exact .leave he hk fun v => by simp [transfer, he, hf, hk]
      | flow guard => exact .flow he hf hk fun v => transfer_flow he hf hk

theorem flow_of_copy_eq_none (h : (ctx.program.stmtAt n).bind Statement.copy? = none) :
    ctx.flow v e n n' = ctx.applied v n n' (ctx.possibleAt e) := by
  unfold flow
  rw [h]

section Copy

variable {target source : Expr}
  (hcopy : (ctx.program.stmtAt n).bind Statement.copy? = some (target, source))
include hcopy

/-- What a copy raises is what the rules raise that look for leaks among the copied states. -/
theorem incidents_flow_of_copy : (ctx.flow v e n n').incidents =
    (ctx.applied (ctx.copied v n' target source) n n'
      ((ctx.possibleAt e).filter (·.isLeakRule))).incidents := by
  unfold flow
  simp only [hcopy]
  split <;> rfl

theorem found_flow_of_copy : (ctx.flow v e n n').found =
    (ctx.applied (ctx.copied v n' target source) n n'
      ((ctx.possibleAt e).filter (·.isLeakRule))).found := by
  unfold flow
  simp only [hcopy]
  split <;> rfl

theorem exists_result_flow (v : NodeStates) (e : EdgeId) (n' : NodeId) :
    ∃ x, (ctx.flow v e n n').result = some x := by
  unfold flow
  simp only [hcopy]
  split <;> exact ⟨_, rfl⟩

/-- After a copy the states are the copied ones, or what the rules make of these if one fires. -/
theorem result_flow_cases {x : NodeStates} (hx : (ctx.flow v e n n').result = some x) :
    (ctx.applied (ctx.copied v n' target source) n n'
        ((ctx.possibleAt e).filter (·.isLeakRule))).found = [] ∧
      x = ctx.copied v n' target source ∨
    (ctx.applied (ctx.copied v n' target source) n n'
        ((ctx.possibleAt e).filter (·.isLeakRule))).found ≠ [] ∧
      (ctx.applied (ctx.copied v n' target source) n n'
        ((ctx.possibleAt e).filter (·.isLeakRule))).result = some x := by
  unfold flow at hx
  simp only [hcopy] at hx
  split at hx
  · rename_i hquiet
    exact .inl ⟨List.isEmpty_iff.1 hquiet, (Option.some.inj hx).symm⟩
  · rename_i hfired
    exact .inr ⟨fun h => hfired (List.isEmpty_iff.2 h), hx⟩

end Copy

/-- A copy hands its states to the rules that look for leaks, whether or not one fires. -/
theorem result_flow_of_copy (hreg : ctx.Regular) {target source : Expr}
    (h : (ctx.program.stmtAt n).bind Statement.copy? = some (target, source))
    (hfits : ctx.Fits n' (ctx.copied v n' target source)) : (ctx.flow v e n n').result =
      (ctx.applied (ctx.copied v n' target source) n n'
        ((ctx.possibleAt e).filter (·.isLeakRule))).result := by
  obtain ⟨x, hx⟩ := exists_result_flow h v e n'
  rw [hx]
  rcases result_flow_cases h hx with ⟨hfound, rfl⟩ | ⟨-, hx⟩
  · exact (result_applied_of_found hreg hfits hfound).symm
  · exact hx.symm

/-- An edge that can be taken carries all values at its source, thread by thread. -/
theorem exists_threads (hreg : ctx.Regular) (he : ctx.program.edges[e]? = some edge)
    (hf : ctx.isFeasible e = true) : ∃ T, ctx.Threads edge.source edge.target T ∧
      ∀ v, ctx.Fits edge.source v → (ctx.transfer v e).result = some (T v) := by
  have hscope : ∀ c ∈ ctx.classesAt edge.source,
      EquivClass.isInScope c (ctx.program.functionIdOf edge.target) = true :=
    fun _ hc => hreg.scopes he hc
  rcases hreg.kinds he with hk | ⟨guard, hk⟩
  · exact ⟨_, threads_pass hscope, fun v _ => congrArg Passage.result (transfer_root he hf hk)⟩
  · cases hcopy : (ctx.program.stmtAt edge.source).bind Statement.copy? with
    | none =>
      obtain ⟨T, hT, hresult⟩ := threads_applied hreg hscope edge.source (ctx.possibleAt e)
      refine ⟨T, hT, fun v hv => ?_⟩
      rw [transfer_flow he hf hk, flow_of_copy_eq_none hcopy]
      exact hresult v hv
    | some pair =>
      obtain ⟨target, source⟩ := pair
      have hcopied := threads_copied hreg hscope target source
      have hhome : ∀ c ∈ ctx.classesAt edge.target,
          EquivClass.isInScope c (ctx.program.functionIdOf edge.target) = true :=
        fun _ hc => hreg.home hc
      obtain ⟨T, hT, hresult⟩ := threads_applied hreg hhome edge.source
        ((ctx.possibleAt e).filter (·.isLeakRule))
      refine ⟨_, hT.comp hcopied, fun v hv => ?_⟩
      have hfits := hcopied.fits hv
      rw [transfer_flow he hf hk, result_flow_of_copy hreg hcopy hfits]
      exact hresult _ hfits

theorem isFeasible_of_result {u : NodeStates} (h : (ctx.transfer v e).result = some u) :
    ctx.isFeasible e = true := by
  cases hf : ctx.isFeasible e with
  | true => rfl
  | false =>
    rw [transfer_of_not_feasible hf] at h
    cases h

section Calls

variable {u : NodeStates} {call : NodeId} {callee : Function} {result : Option Expr}
  {args : List Expr} {x : Expr}

/-- The states of expressions that a return hands back: arguments have those of their parameters,
the result has those of the returned value, and what else is in scope has its own. -/
def handedBack (ctx : StatesContext) (v : NodeStates) (scope : Option FunctionId)
    (callee : Function) (result : Option Expr) (args : List Expr) : ExprStates :=
  let exprs := v.handOver ((args.map Expr.simplify).zip callee.paramExprs)
    ((v.without callee.id).flatten scope)
  match result with
  | some r => exprs.insert r.simplify (ctx.returnedStates v callee)
  | none => exprs

theorem get?_handedBack {scope : Option FunctionId} :
    (ctx.handedBack v scope callee result args).get? x =
      if result.map Expr.simplify = some x then some (ctx.returnedStates v callee)
      else (v.handOver ((args.map Expr.simplify).zip callee.paramExprs)
        ((v.without callee.id).flatten scope)).get? x := by
  unfold handedBack
  cases result with
  | none => rfl
  | some r => simp [SortedMap.get?_insert, eq_comm]

/-- The result is in the states of the returned value, and all else in those that are handed back
or kept. -/
theorem mayBe_handedBack {scope : Option FunctionId} {t : State} :
    (ctx.handedBack v scope callee result args).MayBe x t ↔
      result.map Expr.simplify = some x ∧ t ∈ ctx.returnedStates v callee ∨
      result.map Expr.simplify ≠ some x ∧
        (v.handOver ((args.map Expr.simplify).zip callee.paramExprs)
          ((v.without callee.id).flatten scope)).MayBe x t := by
  unfold SortedMap.MayBe
  rw [get?_handedBack]
  split <;> simp [*]

theorem exists_of_enter (he : ctx.program.edges[e]? = some edge) (hk : edge.kind = .enter)
    (hu : (ctx.transfer v e).result = some u) : ∃ callee result args,
      ctx.program.functionOf edge.target = some callee ∧
      ctx.program.callAt edge.source = some (result, args) ∧
      u = ctx.regroup edge.target
        (v.handOver (callee.paramExprs.zip args) ((v.without callee.id).flatten callee.id))
        ((v.without callee.id).carried callee.id) := by
  simp only [transfer, he, isFeasible_of_result hu, hk, if_true, Passage.quiet, enter,
    Option.bind_eq_bind, Option.bind_eq_some_iff] at hu
  obtain ⟨callee, hcallee, ⟨result, args⟩, hcall, hu⟩ := hu
  exact ⟨callee, result, args, hcallee, hcall, (Option.some.inj hu).symm⟩

theorem exists_of_leave (he : ctx.program.edges[e]? = some edge) (hk : edge.kind = .leave call)
    (hu : (ctx.transfer v e).result = some u) : ∃ callee result args,
      ctx.program.functionOf edge.source = some callee ∧
      ctx.program.callAt call = some (result, args) ∧
      u = ctx.regroup edge.target
        (ctx.handedBack v (ctx.program.functionIdOf edge.target) callee result args)
        ((v.without callee.id).carried (ctx.program.functionIdOf edge.target)) := by
  simp only [transfer, he, isFeasible_of_result hu, hk, if_true, Passage.quiet, leave,
    Option.bind_eq_bind, Option.bind_eq_some_iff] at hu
  obtain ⟨callee, hcallee, ⟨result, args⟩, hcall, hu⟩ := hu
  refine ⟨callee, result, args, hcallee, hcall, ?_⟩
  rw [← Option.some.inj hu]
  cases result <;> rfl

theorem eq_regroup_of_leave (he : ctx.program.edges[e]? = some edge)
    (hk : edge.kind = .leave call) (hcallee : ctx.program.functionOf edge.source = some callee)
    (hcall : ctx.program.callAt call = some (result, args))
    (hu : (ctx.transfer v e).result = some u) : u = ctx.regroup edge.target
      (ctx.handedBack v (ctx.program.functionIdOf edge.target) callee result args)
      ((v.without callee.id).carried (ctx.program.functionIdOf edge.target)) := by
  obtain ⟨callee', result', args', hcallee', hcall', rfl⟩ := exists_of_leave he hk hu
  obtain rfl := Option.some.inj (hcallee.symm.trans hcallee')
  obtain ⟨rfl, rfl⟩ := Prod.mk.inj (Option.some.inj (hcall.symm.trans hcall'))
  rfl

end Calls

theorem fits_transfer (hreg : ctx.Regular) (he : ctx.program.edges[e]? = some edge)
    (hv : ctx.Fits edge.source v) {u : NodeStates} (h : (ctx.transfer v e).result = some u) :
    ctx.Fits edge.target u := by
  obtain ⟨T, hT, hresult⟩ := exists_threads hreg he (isFeasible_of_result h)
  rw [hresult v hv] at h
  exact Option.some.inj h ▸ hT.fits hv

/-- Where nothing is copied, each error tells of a state at the source of the edge. -/
theorem mem_incidents_transfer (hreg : ctx.Regular) (he : ctx.program.edges[e]? = some edge)
    (hcopy : (ctx.program.stmtAt edge.source).bind Statement.copy? = none) {f : Finding}
    (h : .finding f ∈ (ctx.transfer v e).incidents) :
    f.node = edge.source ∧ ∃ c, f.expr.simplify ∈ c ∧ v.map.MayBe c f.state := by
  cases hf : ctx.isFeasible e with
  | false =>
    rw [transfer_of_not_feasible hf] at h
    cases h
  | true =>
    rcases hreg.kinds he with hk | ⟨guard, hk⟩
    · rw [transfer_root he hf hk] at h
      cases h
    · rw [transfer_flow he hf hk, flow_of_copy_eq_none hcopy] at h
      exact mem_incidents_applied h

section Solution

variable {pass : String} {limit : Nat} {sol : StatesSolution}

theorem preserves_problem (hreg : ctx.Regular) : ctx.problem.Preserves fun n v =>
    ctx.Fits n v ∧ (n = Program.root → ∀ c t, v.map.MayBe c t → t = ctx.automaton.default) where
  seed n _ := ⟨fits_initial, fun _ _ _ h => (mayBe_initial.1 h).2⟩
  transfer {n v x u} hv hx hu := by
    obtain ⟨edge, he, rfl, htarget⟩ := Program.mem_successors.1 hx
    rw [← htarget]
    exact ⟨fits_transfer hreg he hv.1 hu, fun hroot => absurd hroot (hreg.root he)⟩
  meet {n v u} hv hu := by
    refine ⟨hv.1.meet hu.1, fun hn c t h => ?_⟩
    rcases (hv.1.mayBe_meet hu.1).1 h with h | h
    · exact hv.2 hn c t h
    · exact hu.2 hn c t h

theorem fits_value (hreg : ctx.Regular) (hs : ctx.problem.solve pass limit = .ok sol)
    (hv : sol.value n = some v) : ctx.Fits n v :=
  ((preserves_problem hreg).solve hs hv).1

theorem value_root (hreg : ctx.Regular) (hs : ctx.problem.solve pass limit = .ok sol) :
    sol.value Program.root = some (ctx.initial Program.root) := by
  obtain ⟨v, hv, -⟩ := (rises_problem ctx).reaches_seed hs (n := Program.root)
    (by simp [problem])
  obtain ⟨hfits, hdefault⟩ := (preserves_problem hreg).solve hs hv
  have heq : v = ctx.initial Program.root := by
    apply hfits.eq_of_mayBe_iff fits_initial
    intro c t
    rw [mayBe_initial]
    constructor
    · intro h
      exact ⟨hfits.mem_of_mayBe h, hdefault rfl c t h⟩
    · rintro ⟨hc, rfl⟩
      obtain ⟨t, ht⟩ := hfits.exists_mayBe hc
      exact hdefault rfl c t ht ▸ ht
  exact heq ▸ hv

/-- The value at the target of an edge is above what the edge carries of the one at its
source. -/
theorem exists_value_of_transfer (hs : ctx.problem.solve pass limit = .ok sol)
    (he : ctx.program.edges[e]? = some edge) (hv : sol.value edge.source = some v)
    {u : NodeStates} (hu : (ctx.transfer v e).result = some u) :
    ∃ w, sol.value edge.target = some w ∧ u.Below w :=
  (rises_problem ctx).passedOn_solve hs edge.source v hv (e, edge.target)
    (Program.mem_successors.2 ⟨edge, he, rfl, rfl⟩) u hu

end Solution

end StatesContext

end Typestate

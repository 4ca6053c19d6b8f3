import Typestate.Proofs.States.Groups
import Typestate.Proofs.States.Settled

/-!
# Returned values and results

A function is drawn up with one returned value, that of the statement added last which returns any.
On a return the result of the call takes the states of this value. So of several values that a
function may return all but the last one count only as far as their states come to the class of
the result in another way.
-/
namespace Typestate

/-- The value that a step has a function return. -/
def Step.returnOf? (f : FunctionId) : Step → Option Expr
  | addStatement g (.ret (some value)) _ => if g = f then some value else none
  | _ => none

/-- The values that statements of a function return, in the order in which they are added. -/
def returnsOf (steps : List Step) (f : FunctionId) : List Expr :=
  steps.filterMap (Step.returnOf? f)

theorem returnsOf_snoc {steps : List Step} {s : Step} {f : FunctionId} :
    returnsOf (steps ++ [s]) f = returnsOf steps f ++ (s.returnOf? f).toList := by
  unfold returnsOf
  rw [List.filterMap_append]
  cases h : s.returnOf? f <;> simp [h]

namespace Draft

variable {d d' : Draft} {f g : FunctionId} {s : Step}

/-- What a function is recorded to return. -/
def returnedBy (d : Draft) (f : FunctionId) : Option Expr := d.functions[f]?.bind (·.returned)

theorem returnedBy_modifyFunction {change : Function → Function}
    (h : ∀ x, (change x).returned = x.returned) :
    (d.modifyFunction g change).returnedBy f = d.returnedBy f := by
  unfold returnedBy modifyFunction
  rw [Array.getElem?_modify]
  split
  · cases d.functions[f]? with
    | none => rfl
    | some x => exact h x
  · rfl

theorem returnedBy_addFunction {name : String} {location : Option Location} :
    (d.addFunction name location).returnedBy f = d.returnedBy f := by
  unfold returnedBy addFunction
  dsimp only [addNode]
  rw [Array.getElem?_push]
  split
  · rename_i h
    rw [h, Array.getElem?_eq_none le_rfl]
    rfl
  · rfl

theorem returnedBy_addStatement {stmt : Statement} {location : Option Location}
    (hg : g < d.functions.size) : (d.addStatement g stmt location).returnedBy f =
      (((Step.addStatement g stmt location).returnOf? f).map Expr.simplify).or
        (d.returnedBy f) := by
  cases stmt with
  | ret value =>
    cases value with
    | none => rfl
    | some value =>
      simp only [addStatement, addNode, modifyFunction, returnedBy, Step.returnOf?,
        Array.getElem?_modify]
      split
      · rename_i hgf
        subst hgf
        rw [Array.getElem?_eq_getElem hg]
        rfl
      · rfl
  | assign | call | cond | switch | phi | nop => rfl

/-- A step that has a function return a value records it; the others leave the record alone. -/
theorem returnedBy_perform? (h : s.perform? d = some d') :
    d'.returnedBy f = ((s.returnOf? f).map Expr.simplify).or (d.returnedBy f) := by
  unfold Step.perform? at h
  split at h
  · rename_i hcheck
    obtain rfl := Option.some.inj h
    cases s with
    | addStatement g stmt location =>
      have hfunctions := (Bool.and_eq_true_iff.1 hcheck).1
      exact returnedBy_addStatement (by simpa [Step.functions] using hfunctions)
    | addFunction => exact returnedBy_addFunction
    | addParam | addLocal | addTemporary | setEnd => exact returnedBy_modifyFunction fun _ => rfl
    | addCall caller stmt callee location =>
      dsimp only [Step.run]
      cases d.functions[callee]? <;> rfl
    | markEntryPoint g =>
      dsimp only [Step.run, markEntryPoint]
      split <;> rfl
    | addGlobal | addNode | addEdge | addBranch | addSwitch => rfl
  · cases h

/-- A function is recorded to return what the last of its statements returns that returns
anything. -/
theorem returnedBy_ofSteps {steps : List Step} (hd : ofSteps? steps = some d) (f : FunctionId) :
    d.returnedBy f = (returnsOf steps f).getLast?.map Expr.simplify := by
  unfold ofSteps? at hd
  induction steps using List.reverseRecOn generalizing d with
  | nil =>
    obtain rfl := Option.some.inj hd
    rfl
  | append_singleton steps s ih =>
    rw [List.foldlM_append] at hd
    obtain ⟨d₁, hd₁, hs⟩ := Option.bind_eq_some_iff.1 hd
    obtain ⟨d₂, hd₂, hd⟩ := Option.bind_eq_some_iff.1 hs
    obtain rfl := Option.some.inj hd
    rw [returnedBy_perform? hd₂, ih hd₁, returnsOf_snoc, List.getLast?_append]
    cases s.returnOf? f <;> simp

theorem returned_functionOf {steps : List Step} {p : Program} (hd : ofSteps? steps = some d)
    (hp : d.build = .ok p) {n : NodeId} {callee : Function}
    (hcallee : p.functionOf n = some callee) :
    callee.returned = (returnsOf steps callee.id).getLast?.map Expr.simplify := by
  obtain ⟨i, -, hi⟩ := Option.bind_eq_some_iff.1 hcallee
  have hid := ((wellFormed_build hd hp).functions i callee hi).1
  rw [← returnedBy_ofSteps hd, hid]
  rw [eq_finish_of_build hp] at hi
  unfold returnedBy
  exact (congrArg (Option.bind · Function.returned) hi).symm

end Draft

namespace StatesContext

open NodeStates

variable {ctx : StatesContext} {v u : NodeStates} {e : EdgeId} {edge : Edge} {call : NodeId}
  {callee : Function} {r : Expr} {args : List Expr} {c : EquivClass} {t : State}

/-- Whether a class is in a state behind a return whatever an expression is given: another member is
in it, or the class has travelled through the callee and is. -/
def HasBesides (ctx : StatesContext) (v : NodeStates) (edge : Edge) (callee : Function)
    (args : List Expr) (x : Expr) (c : EquivClass) (t : State) : Prop :=
  (∃ y ∈ c, y ≠ x ∧ (v.handOver ((args.map Expr.simplify).zip callee.paramExprs)
    ((v.without callee.id).flatten (ctx.program.functionIdOf edge.target))).MayBe y t) ∨
  ((v.without callee.id).carried (ctx.program.functionIdOf edge.target)).MayBe c t

theorem exists_mem_returnedStates (hv : v.map.Filled) : ∃ t, t ∈ ctx.returnedStates v callee := by
  unfold returnedStates
  cases hs : callee.returned.bind v.statesOf with
  | none => exact ⟨_, mem_defaults.2 rfl⟩
  | some s =>
    obtain ⟨x, -, hx⟩ := Option.bind_eq_some_iff.1 hs
    exact exists_mem_of_statesOf hv hx

/-- Behind a return the class of the result is in the states of the returned value, and in those
that it has besides. -/
theorem mayBe_result_iff (he : ctx.program.edges[e]? = some edge)
    (hk : edge.kind = .leave call) (hcallee : ctx.program.functionOf edge.source = some callee)
    (hcall : ctx.program.callAt call = some (some r, args))
    (hu : (ctx.transfer v e).result = some u) (hv : v.map.Filled)
    (hc : c ∈ ctx.classesAt edge.target) (hr : r.simplify ∈ c) :
    u.map.MayBe c t ↔
      t ∈ ctx.returnedStates v callee ∨ ctx.HasBesides v edge callee args r.simplify c t := by
  rw [eq_regroup_of_leave he hk hcallee hcall hu, mayBe_regroup_iff, and_iff_right hc, HasBesides,
    ← or_assoc]
  refine or_congr_left ?_
  rw [mem_gather, or_iff_left ?_]
  · simp only [mayBe_handedBack, Option.map_some, ne_eq, Option.some_inj]
    constructor
    · rintro ⟨y, hy, ⟨-, ht⟩ | ⟨hne, ht⟩⟩
      · exact .inl ht
      · exact .inr ⟨y, hy, Ne.symm hne, ht⟩
    · rintro (ht | ⟨y, hy, hne, ht⟩)
      · exact ⟨_, hr, .inl ⟨rfl, ht⟩⟩
      · exact ⟨y, hy, .inr ⟨Ne.symm hne, ht⟩⟩
  · rintro ⟨hnone, -⟩
    obtain ⟨t', ht'⟩ : ∃ t', t' ∈ ctx.returnedStates v callee := exists_mem_returnedStates hv
    exact hnone _ hr t' (mayBe_handedBack.2 (.inl ⟨rfl, ht'⟩))

section Returns

variable {steps : List Step} {d : Draft} {p : Program} {a : Automaton} {facts : FactsSolution}

/-- Whether a class is in the states that a returned value has at the exit. -/
def CoversReturn (v u : NodeStates) (c : EquivClass) (w : Expr) : Prop :=
  ∀ s, v.statesOf w = some s → ∀ t ∈ s, u.map.MayBe c t

/-- Behind a return the class of the result is in the states of the value that was added last to the
function as returned, or by default if these are not known, and in those that it has besides. So
the states of that value are covered; those of all returned values are just if the states of each
earlier one are among them, or had besides. The states of a value that is in one class with the last
one are. -/
theorem transfer_covers_returns_iff (hd : Draft.ofSteps? steps = some d) (hp : d.build = .ok p)
    (he : p.edges[e]? = some edge) (hk : edge.kind = .leave call)
    (hcallee : p.functionOf edge.source = some callee)
    (hcall : p.callAt call = some (some r, args))
    (hu : ((StatesContext.of p a facts).transfer v e).result = some u) (hv : v.map.Filled)
    (hc : c ∈ (StatesContext.of p a facts).classesAt edge.target) (hr : r.simplify ∈ c) :
    let ctx := StatesContext.of p a facts
    let returns := returnsOf steps callee.id
    let last := (returns.getLast?.bind v.statesOf).getD ctx.defaults
    (∀ t, u.map.MayBe c t ↔ t ∈ last ∨ ctx.HasBesides v edge callee args r.simplify c t) ∧
    ((∀ w ∈ returns, CoversReturn v u c w) ↔
      ∀ w ∈ returns.dropLast, ∀ s, v.statesOf w = some s →
        ∀ t ∈ s, t ∈ last ∨ ctx.HasBesides v edge callee args r.simplify c t) ∧
    ∀ w w', returns.getLast? = some w' → v.classOf w = v.classOf w' → CoversReturn v u c w := by
  intro ctx returns last
  have hreturned := Draft.returned_functionOf hd hp hcallee
  have hlast : ctx.returnedStates v callee = last := by
    unfold returnedStates
    rw [hreturned, Option.bind_map]
    exact congrArg (fun o => (Option.bind returns.getLast? o).getD ctx.defaults)
      (funext fun w => statesOf_simplify)
  have hexact : ∀ t, u.map.MayBe c t ↔
      t ∈ last ∨ ctx.HasBesides v edge callee args r.simplify c t := by
    intro t
    rw [← hlast]
    exact mayBe_result_iff he hk hcallee hcall hu hv hc hr
  have hcovered : ∀ w w', returns.getLast? = some w' → v.classOf w = v.classOf w' →
      CoversReturn v u c w := by
    intro w w' hw' hclass s hs t ht
    rw [statesOf_eq_bind, hclass, ← statesOf_eq_bind] at hs
    refine (hexact t).2 (.inl ?_)
    simpa [last, hw', hs] using ht
  refine ⟨hexact, ?_, hcovered⟩
  have hsplit : ∀ w ∈ returns, w ∈ returns.dropLast ∨ returns.getLast? = some w := by
    intro w hw
    rcases List.eq_nil_or_concat returns with hnil | ⟨l, y, hl⟩
    · simp [hnil] at hw
    · rw [hl] at hw ⊢
      simpa [eq_comm] using hw
  constructor
  · intro hall w hw s hs t ht
    exact (hexact t).1 (hall w (List.mem_of_mem_dropLast hw) s hs t ht)
  · intro hearlier w hw
    rcases hsplit w hw with hw | hw
    · exact fun s hs t ht => (hexact t).2 (hearlier w hw s hs t ht)
    · exact hcovered w w hw rfl

end Returns

end StatesContext

namespace Analysis

def obtained : Expr := .var ⟨"y", some 0, .localVar, .pointer⟩

def produced (name : String) : Expr := .var ⟨name, some 1, .localVar, .pointer⟩

/-- Draws up the program `main(k) { y = f(k); }` with
`f(c) { a = malloc(8); if (c == 0) return a; else return …; }`, where another local of `f` is
returned last or `a` again. -/
def returning (last : String) : List Step :=
  let k : Expr := .var ⟨"k", some 0, .param, .integer⟩
  let c : Expr := .var ⟨"c", some 1, .param, .integer⟩
  [.addFunction "main" none, .addFunction "f" none, .addParam 0 "k" .integer,
    .addLocal 0 "y" .pointer, .addParam 1 "c" .integer, .addLocal 1 "a" .pointer,
    .addLocal 1 "b" .pointer, .addCall 0 (.call (some obtained) "f" [k]) 1 none,
    .addStatement 1 (.call (some (produced "a")) "malloc" [.lit 8]) none,
    .addStatement 1 (.cond c .eq (.lit 0)) none,
    .addStatement 1 (.ret (some (produced "a"))) none,
    .addStatement 1 (.ret (some (produced last))) none,
    .addEdge 1 5, .addEdge 6 2, .addEdge 3 7, .addEdge 7 8, .addBranch 8 9 10, .addEdge 9 4,
    .addEdge 10 4, .markEntryPoint 0]

def returningDraft (last : String) : Draft := (Draft.ofSteps? (returning last)).getD Draft.empty

/-- If `f` returns `a` in both cases, the result may be allocated. -/
theorem transfer_covers_returns_iff_returning : ∃ p a v u c,
    (returningDraft "a").build = .ok p ∧ solve p allocations 100 = .ok a ∧
    a.states.value 4 = some v ∧ (a.context.transfer v 2).result = some u ∧
    c ∈ a.context.classesAt 6 ∧ obtained ∈ c ∧ u.map.MayBe c (.named "ptr.unknown") ∧
    ∀ w ∈ returnsOf (returning "a") 1, StatesContext.CoversReturn v u c w := by
  have hd : Draft.ofSteps? (returning "a") = some (returningDraft "a") := rfl
  have hp : (returningDraft "a").build = .ok (returningDraft "a").finish := rfl
  obtain ⟨a, ha, htest⟩ := exists_eq_ok_of_any
    (solve (returningDraft "a").finish allocations 100)
    (fun a => (a.states.value 4).any fun v => (a.context.transfer v 2).result.any fun u =>
      (a.context.classesAt 6).toList.any fun c => decide (obtained ∈ c) &&
        (u.map.get? c).any (State.named "ptr.unknown" ∈ ·)) (by decide +kernel)
  simp only [Option.any_eq_true, List.any_eq_true, Bool.and_eq_true, decide_eq_true_eq] at htest
  obtain ⟨v, hv, u, hu, c, hc, hy, s, hs, ht⟩ := htest
  have hfilled := filled_of_solve (Draft.wellFormed_build hd hp) ha hv
  obtain ⟨facts, -, hctx, -⟩ := solve_eq_ok ha
  have he : (returningDraft "a").finish.edges[2]? = some ⟨4, 6, .leave 5⟩ := rfl
  have hcallee : (returningDraft "a").finish.functionOf 4 =
      some ⟨1, "f", [⟨"c", some 1, .param, .integer⟩], [⟨"a", some 1, .localVar, .pointer⟩,
        ⟨"b", some 1, .localVar, .pointer⟩], 3, 4, some (produced "a"), none, none⟩ := rfl
  obtain ⟨-, -, hcovered⟩ := StatesContext.transfer_covers_returns_iff hd hp he rfl hcallee rfl
    (hctx ▸ hu) hfilled (hctx ▸ hc) hy
  refine ⟨_, a, v, u, c, hp, ha, hv, hu, hc, hy, ⟨s, hs, ht⟩, fun w hw => ?_⟩
  have hreturns : returnsOf (returning "a") 1 = [produced "a", produced "a"] := rfl
  obtain rfl : w = produced "a" := by simpa [hreturns] using hw
  exact hcovered _ _ rfl rfl

/-- If `f` returns `b` last, the result is not allocated, whatever `f` returns before. -/
theorem returning_forgets_first : ∃ p a v u c,
    Draft.ofSteps? (returning "b") = some (returningDraft "b") ∧
    (returningDraft "b").build = .ok p ∧ solve p allocations 100 = .ok a ∧
    p.callAt 5 = some (some obtained, [.var ⟨"k", some 0, .param, .integer⟩]) ∧
    p.functionIdOf 5 = some 0 ∧ p.functionIdOf 4 = some 1 ∧
    a.states.value 4 = some v ∧ (a.context.transfer v 2).result = some u ∧
    c ∈ a.context.classesAt 6 ∧ obtained ∈ c ∧
    ∃ w ∈ returnsOf (returning "b") 1, ¬ StatesContext.CoversReturn v u c w := by
  have hp : (returningDraft "b").build = .ok (returningDraft "b").finish := rfl
  obtain ⟨a, ha, htest⟩ := exists_eq_ok_of_any
    (solve (returningDraft "b").finish allocations 100)
    (fun a => (a.states.value 4).any fun v => (a.context.transfer v 2).result.any fun u =>
      (a.context.classesAt 6).toList.any fun c => decide (obtained ∈ c) &&
        (v.statesOf (produced "a")).any fun s =>
          s.toList.any fun t => (u.map.get? c).all (t ∉ ·)) (by decide +kernel)
  simp only [Option.any_eq_true, List.any_eq_true, Bool.and_eq_true, decide_eq_true_eq] at htest
  obtain ⟨v, hv, u, hu, c, hc, hy, s, hs, t, ht, hnot⟩ := htest
  refine ⟨_, a, v, u, c, rfl, hp, ha, rfl, rfl, rfl, hv, hu, hc, hy, produced "a",
    List.mem_cons_self .., fun hcovers => ?_⟩
  obtain ⟨s', hs', ht'⟩ := hcovers s hs t ht
  rw [hs'] at hnot
  simp [ht'] at hnot

end Analysis

end Typestate

import Typestate.Proofs.Fixpoint.Storing
import Typestate.Proofs.Recording
import Typestate.Proofs.States.Union

/-!
# The shape of stored values

Every value that the states pass gives a node, on its way or in the end, has states for the classes
at the node, and all its further classes are of other functions. The same goes for the values of
exploded nodes. So two values at a node do not differ in the classes in scope, and to meet them is
to unite them.

The classes at a node need not be in scope there. Literals without a number glue classes together:
if variables of two functions are equal to the same string they are in one class, and that class
belongs to one of the functions.
-/
namespace Typestate

namespace StatesContext

open NodeStates

/-- A value that stands at a node and has states for the classes there. Classes in scope are among
these; others travel along. -/
structure Shaped (ctx : StatesContext) (n : NodeId) (v : NodeStates) : Prop
    extends ctx.Covers n v where
  node : v.node = n
  scope : ∀ {c s}, v.map.get? c = some s →
    EquivClass.isInScope c (ctx.program.functionIdOf n) = true → c ∈ ctx.classesAt n

variable {ctx : StatesContext} {n : NodeId} {v w : NodeStates} {c : EquivClass}

theorem Shaped.inScope_iff (hv : ctx.Shaped n v) :
    ((∃ s, v.map.get? c = some s) ∧
      EquivClass.isInScope c (ctx.program.functionIdOf n) = true) ↔
    c ∈ ctx.classesAt n ∧ EquivClass.isInScope c (ctx.program.functionIdOf n) = true := by
  constructor
  · rintro ⟨⟨s, hs⟩, hc⟩
    exact ⟨hv.scope hs hc, hc⟩
  · rintro ⟨hc, hscope⟩
    exact ⟨hv.classes hc, hscope⟩

/-- What is gathered at a node has the shape of the node, since no class in scope travels along. -/
theorem shaped_regroup {exprs : ExprStates}
    (hw : ∀ c s, c ∉ ctx.classesAt n → w.map.get? c = some s → ∃ t, t ∈ s) :
    ctx.Shaped n (ctx.regroup n exprs (w.carried (ctx.program.functionIdOf n))) := by
  refine ⟨covers_regroup fun c s hc hs => ?_, rfl, fun {c s} hs hscope => ?_⟩
  · rw [get?_carried] at hs
    split at hs
    · cases hs
    · exact hw c s hc hs
  · rcases exists_get?_regroup.1 ⟨s, hs⟩ with hc | ⟨s', hs'⟩
    · exact hc
    · rw [get?_carried, if_pos hscope] at hs'
      cases hs'

theorem Shaped.meet (hv : ctx.Shaped n v) (hw : ctx.Shaped n w) :
    ctx.Shaped n (ctx.meet v w) := by
  refine ⟨hv.toCovers.meet hw.toCovers, hv.node, fun {c s} hs hscope => ?_⟩
  rcases exists_get?_meet.1 ⟨s, hs⟩ with ⟨s', hs'⟩ | ⟨s', hs'⟩
  · exact hv.scope hs' hscope
  · exact hw.scope hs' hscope

theorem preserves_shaped (hwf : ctx.program.WellFormed) : ctx.problem.Preserves ctx.Shaped where
  seed n _ := by
    refine ⟨⟨fun hc => fits_initial.get?_of_mem hc, fits_initial.nonempty⟩, rfl, ?_⟩
    exact fun hs _ => (fits_initial.keys _).1 ⟨_, hs⟩
  transfer {n v x u} hv hx hu := by
    obtain ⟨edge, he, rfl, htarget⟩ := Program.mem_successors.1 hx
    obtain ⟨exprs, w, hcarries, rfl⟩ := transfer_eq_regroup hwf he hu
    rw [← htarget]
    apply shaped_regroup
    intro c s hc hs
    exact hv.nonempty ((hcarries.known c s hs).resolve_left hc)
  meet hv hw := hv.meet hw

theorem Shaped.of_mem_explode (hv : ctx.Shaped n v) {x : ExplodedNode} (hx : x ∈ v.explode n) :
    ctx.Shaped n x.states := by
  have hcovers := hv.toCovers.of_mem_explode hx
  obtain rfl | ⟨c, s, t, hs, -, -, rfl⟩ := eq_of_mem_explode hx
  · exact hv
  · refine ⟨hcovers, hv.node, fun {d s'} hs' hscope => ?_⟩
    unfold restrict at hs'
    rw [SortedMap.get?_insert] at hs'
    split at hs'
    · rename_i hd
      exact hv.scope (hd ▸ hs) hscope
    · exact hv.scope hs' hscope

section Defaults

variable (hv : ctx.Shaped n v) (hw : ctx.Shaped n w)
include hv hw

theorem Shaped.not_inScope {s : States} (hs : v.map.get? c = some s) (hnone : w.map.get? c = none) :
    EquivClass.isInScope c (ctx.program.functionIdOf n) = false := by
  cases hscope : EquivClass.isInScope c (ctx.program.functionIdOf n) with
  | false => rfl
  | true =>
    obtain ⟨s', hs'⟩ := hw.classes (hv.scope hs hscope)
    rw [hnone] at hs'
    cases hs'

/-- To meet two values at a node fills in no default states. -/
theorem Shaped.meet_eq_union : ctx.meet v w = v.union w := by
  have hnode := hv.node
  unfold StatesContext.meet NodeStates.meet NodeStates.union
  congr 1
  apply SortedMap.ext
  intro c
  rw [SortedMap.get?_merge, SortedMap.get?_merge]
  cases hvc : v.map.get? c with
  | none =>
    cases hwc : w.map.get? c with
    | none => rfl
    | some s =>
      have hscope := hw.not_inScope hv hwc hvc
      simp [widen, hnode, hscope]
  | some s =>
    cases hwc : w.map.get? c with
    | none =>
      have hscope := hv.not_inScope hw hvc hwc
      simp [widen, hnode, hscope]
    | some s' => rfl

theorem Shaped.isSubsetOf_eq (defaults defaults' : States) :
    v.isSubsetOf defaults (ctx.program.functionIdOf n) w =
      v.isSubsetOf defaults' (ctx.program.functionIdOf n) w := by
  unfold isSubsetOf
  rw [Bool.eq_iff_iff, List.all_eq_true, List.all_eq_true]
  refine forall₂_congr fun x hx => ?_
  obtain ⟨c, s⟩ := x
  dsimp only
  cases hwc : w.map.get? c with
  | some s' => rfl
  | none => simp [hv.not_inScope hw (SortedMap.mem_entries_iff.1 hx) hwc]

end Defaults

/-- Every value that the states pass stores at a node has the shape of the node, and so has every
value of an exploded node. So its classes in scope are those at the node that are in scope; they
are just those at the node if all these are in scope. Where two such values meet or are compared no
default states are filled in. -/
theorem problem_stores_shaped (hwf : ctx.program.WellFormed) :
    (∀ n v, ctx.problem.Stores n v → ctx.Shaped n v) ∧
    (∀ pass limit sol max g incidents, ctx.problem.solve pass limit = .ok sol →
      ctx.explode sol.value max = .ok (.built g, incidents) →
      ∀ i x, g.nodes.get? i = some x → ctx.Shaped x.node x.states) ∧
    ∀ n v, ctx.Shaped n v →
      ((∀ c, ((∃ s, v.map.get? c = some s) ∧
          EquivClass.isInScope c (ctx.program.functionIdOf n) = true) ↔ c ∈ ctx.classesAt n) ↔
        ∀ c ∈ ctx.classesAt n, EquivClass.isInScope c (ctx.program.functionIdOf n) = true) ∧
      ∀ w, ctx.Shaped n w →
        (∀ c, EquivClass.isInScope c (ctx.program.functionIdOf n) = true →
          ((∃ s, v.map.get? c = some s) ↔ ∃ s, w.map.get? c = some s)) ∧
        ctx.meet v w = v.union w ∧
        ∀ defaults defaults', v.isSubsetOf defaults (ctx.program.functionIdOf n) w =
          v.isSubsetOf defaults' (ctx.program.functionIdOf n) w := by
  have hpreserves := preserves_shaped hwf
  refine ⟨fun n v hv => hpreserves.of_stores hv, ?_, fun n v hv => ⟨?_, fun w hw => ?_⟩⟩
  · intro pass limit sol max g incidents hs hexplode i x hx
    obtain ⟨v, hv, hmem⟩ := exists_value_of_get?_nodes hexplode hx
    exact (hpreserves.solve hs hv).of_mem_explode hmem
  · simp only [hv.inScope_iff]
    exact forall_congr' fun c => and_iff_left_iff_imp
  · refine ⟨fun c hscope => ?_, hv.meet_eq_union hw, hv.isSubsetOf_eq hw⟩
    have hiff := (hv.inScope_iff (c := c)).trans hw.inScope_iff.symm
    simpa [hscope] using hiff

end StatesContext

namespace Analysis

section Gluing

def glued : Variable := ⟨"z", some 1, .localVar, .pointer⟩

/-- The program `main() { x = "s"; f(); }` with a function
`f() { z = malloc(8); z = "s"; ; z = calloc(8); y = u; }`. -/
def gluing : Program :=
  let x : Variable := ⟨"x", some 0, .localVar, .pointer⟩
  let u : Variable := ⟨"u", some 1, .localVar, .pointer⟩
  let y : Variable := ⟨"y", some 1, .localVar, .pointer⟩
  let node (f : FunctionId) (kind : NodeKind) (stmt : Option Statement) : Node :=
    ⟨some f, kind, stmt, none⟩
  { nodes := #[⟨none, .root, none, none⟩, node 0 .entry none, node 0 .exit none,
      node 1 .entry none, node 1 .exit none,
      node 0 .statement (some (.assign (.var x) (.use (.text "s")))),
      node 0 .call (some (.call none "f" [])), node 0 .returnSite none,
      node 1 .statement (some (.call (some (.var glued)) "malloc" [.lit 8])),
      node 1 .statement (some (.assign (.var glued) (.use (.text "s")))),
      node 1 .statement (some .nop),
      node 1 .statement (some (.call (some (.var glued)) "calloc" [.lit 8])),
      node 1 .statement (some (.assign (.var y) (.use (.var u))))]
    edges := #[⟨6, 3, .enter⟩, ⟨6, 7, .callToReturn⟩, ⟨4, 7, .leave 6⟩, ⟨1, 5, .flow .always⟩,
      ⟨5, 6, .flow .always⟩, ⟨7, 2, .flow .always⟩, ⟨3, 8, .flow .always⟩, ⟨8, 9, .flow .always⟩,
      ⟨9, 10, .flow .always⟩, ⟨10, 11, .flow .always⟩, ⟨11, 12, .flow .always⟩,
      ⟨12, 4, .flow .always⟩, ⟨0, 1, .root⟩]
    functions := #[⟨0, "main", [], [x], 1, 2, none, none, none⟩,
      ⟨1, "f", [], [u, y, glued], 3, 4, none, none, none⟩]
    globals := [] }

/-- The machine that finds allocated memory which leaks before it is zeroed. -/
def zeroing : Automaton :=
  let ptr : Decl := ⟨"ptr", .anyPointer, true, none⟩
  let machine : Machine :=
    { name := "zeroing"
      clauses := [.decl ptr,
        .states ⟨["ptr.start"], [⟨.shape (.callResult (.decl "ptr") "malloc"),
          [.goto (.named "ptr.unknown")], none⟩], none⟩,
        .states ⟨["ptr.unknown"], [⟨.shape (.leaked (.decl "ptr")),
          [.error "leak of \x7bptr\x7d" none], none⟩], none⟩,
        .states ⟨["ptr.*"], [⟨.shape (.callResult (.decl "ptr") "calloc"),
          [.goto (.named "ptr.zeroed")], none⟩], none⟩] }
  machine.automaton ptr

def isBuilt : Explosion × List Incident → Bool
  | (.built _, _) => true
  | (.tooComplex _ _, _) => false

/-- The classes that `main` and `f` share do not keep values from having the shape of their
nodes. -/
theorem problem_stores_shaped_gluing : ∃ a g incidents, gluing.WellFormed ∧
    solve gluing zeroing 100 = .ok a ∧
    a.context.explode a.states.value 100 = .ok (.built g, incidents) ∧
    (∀ n v, a.context.problem.Stores n v → a.context.Shaped n v) ∧
    ∀ i x, g.nodes.get? i = some x → a.context.Shaped x.node x.states := by
  have hwf : gluing.WellFormed := by decide
  obtain ⟨a, ha, htest⟩ := exists_eq_ok_of_any (solve gluing zeroing 100)
    (fun a => (a.context.explode a.states.value 100).toOption.any isBuilt) (by decide +kernel)
  obtain ⟨⟨explosion, incidents⟩, hexplode, hbuilt⟩ := exists_eq_ok_of_any _ isBuilt htest
  cases explosion with
  | tooComplex => cases hbuilt
  | built g =>
    obtain ⟨facts, -, hctx, hs⟩ := solve_eq_ok ha
    have hprogram : a.context.program.WellFormed := by
      rw [hctx]
      exact hwf
    obtain ⟨hstored, hexploded, -⟩ := StatesContext.problem_stores_shaped hprogram
    exact ⟨a, g, incidents, hwf, ha, hexplode, hstored, hexploded _ _ _ _ g incidents hs hexplode⟩

/-- In `f` the variables `x` and `z` are in one class after `z = "s"`, and it belongs to `main`. So
it is not in scope, and to go on past the empty statement adds the default state to `z`. -/
theorem gluing_class_out_of_scope : ∃ a v c s s', gluing.WellFormed ∧
    solve gluing zeroing 100 = .ok a ∧ a.context.problem.Stores 10 v ∧
    c ∈ a.context.classesAt 10 ∧
    ¬ ((∃ t, v.map.get? c = some t) ∧
      EquivClass.isInScope c (gluing.functionIdOf 10) = true) ∧
    a.statesOf 10 (.var glued) = some s ∧ zeroing.default ∉ s ∧
    a.statesOf 11 (.var glued) = some s' ∧ zeroing.default ∈ s' := by
  obtain ⟨a, ha, htest⟩ := exists_eq_ok_of_any (solve gluing zeroing 100)
    (fun a => (a.statesAt 10).isSome &&
      (a.context.classesAt 10).toList.any
        (fun c => !EquivClass.isInScope c (gluing.functionIdOf 10)) &&
      (a.statesOf 10 (.var glued)).any (zeroing.default ∉ ·) &&
      (a.statesOf 11 (.var glued)).any (zeroing.default ∈ ·)) (by decide +kernel)
  simp only [Bool.and_eq_true, Option.any_eq_true, List.any_eq_true, decide_eq_true_eq,
    Option.isSome_iff_exists, Bool.not_eq_true'] at htest
  obtain ⟨⟨⟨⟨v, hv⟩, c, hc, hscope⟩, s, hs, hnot⟩, s', hs', hmem⟩ := htest
  obtain ⟨facts, -, -, hsolve⟩ := solve_eq_ok ha
  have hstored := Dataflow.stores_of_value hsolve hv
  refine ⟨a, v, c, s, s', by decide, ha, hstored, hc, ?_, hs, hnot, hs', hmem⟩
  rintro ⟨-, h⟩
  rw [hscope] at h
  cases h

end Gluing

end Analysis

end Typestate

import Typestate.Proofs.Facts.Partition
import Typestate.Proofs.Facts.Scope
import Typestate.States.Context

/-!
# Classes at nodes

The tracked expressions of a node fall into disjoint classes, each with a member. In a
program free of calls every edge leads to where all classes at its source are in scope.
-/
namespace Typestate

namespace Facts

variable {s : Facts} {l : List Expr}

theorem mem_varClassesOf {c : EquivClass} (hc : c ∈ s.varClassesOf l) :
    ∃ e ∈ l, e.simplify ∈ c ∧
      (c ∈ s.varClasses.classes ∨ c = .singleton e.simplify ∧
        ∀ d ∈ s.varClasses.classes, e.simplify ∉ d) := by
  obtain ⟨e, he, rfl⟩ := List.mem_map.1 (SortedSet.mem_ofList.1 hc)
  refine ⟨e, he, ?_⟩
  cases hclass : s.varClasses.classOf e.simplify with
  | some d =>
    obtain ⟨hd, hed⟩ := Partition.classOf_eq_some hclass
    exact ⟨hed, .inl hd⟩
  | none =>
    exact ⟨SortedSet.mem_singleton.2 rfl, .inr ⟨rfl, Partition.classOf_eq_none hclass⟩⟩

theorem exists_mem_varClassesOf {e : Expr} (he : e ∈ l) :
    ∃ c ∈ s.varClassesOf l, e.simplify ∈ c := by
  refine ⟨_, SortedSet.mem_ofList.2 (List.mem_map_of_mem he), ?_⟩
  cases hclass : s.varClasses.classOf e.simplify with
  | some c => exact (Partition.classOf_eq_some hclass).2
  | none => exact SortedSet.mem_singleton.2 rfl

theorem disjoint_varClassesOf {c d : EquivClass} (hc : c ∈ s.varClassesOf l)
    (hd : d ∈ s.varClassesOf l) {x : Expr} (hxc : x ∈ c) (hxd : x ∈ d) : c = d := by
  obtain ⟨e, -, -, hc | ⟨rfl, hnc⟩⟩ := mem_varClassesOf hc <;>
    obtain ⟨e', -, -, hd | ⟨rfl, hnd⟩⟩ := mem_varClassesOf hd
  · exact Partition.disjoint_ofPairs _ c hc d hd x hxc hxd
  · rw [SortedSet.mem_singleton.1 hxd] at hxc
    exact absurd hxc (hnd c hc)
  · rw [SortedSet.mem_singleton.1 hxc] at hxd
    exact absurd hxd (hnc d hd)
  · rw [← SortedSet.mem_singleton.1 hxc, ← SortedSet.mem_singleton.1 hxd]

theorem isWithin_of_mem_varClassesOf {f : Option FunctionId} (hs : s.IsWithin f)
    (hl : ∀ e ∈ l, e.IsWithin f) {c : EquivClass} (hc : c ∈ s.varClassesOf l) {x : Expr}
    (hx : x ∈ c) : x.IsWithin f := by
  obtain ⟨e, he, -, hc | ⟨rfl, -⟩⟩ := mem_varClassesOf hc
  · obtain ⟨ab, hab, hx⟩ := Partition.exists_pair_of_mem hc hx
    obtain ⟨g, hg, rfl⟩ := List.mem_map.1 hab
    have hg := hs g (List.mem_filter.1 hg).1
    rcases hx with rfl | rfl
    · exact hg.1
    · exact hg.2
  · rw [SortedSet.mem_singleton.1 hx]
    exact Expr.isWithin_simplify.2 (hl e he)

end Facts

namespace EquivClass

theorem isInScope_of_isWithin {c : EquivClass} {f : Option FunctionId}
    (h : ∀ e ∈ c, e.IsWithin f) : isInScope c f = true := by
  have howner : owner c = none ∨ owner c = f := by
    cases ho : owner c with
    | none => exact .inl rfl
    | some g =>
      obtain ⟨e, he, heg⟩ := List.exists_of_findSome?_eq_some ho
      obtain ⟨x, hx, hxg⟩ := List.exists_of_findSome?_eq_some heg
      rcases h e he x hx with hnone | hf
      · rw [hnone] at hxg
        cases hxg
      · exact .inr (hxg.symm.trans hf)
  simpa [isInScope] using howner

end EquivClass

namespace Program

variable {p : Program} {d : Decl}

theorem isWithin_of_mem_trackedGlobals (hwf : p.WellFormed) {f : Option FunctionId} {e : Expr}
    (he : e ∈ p.trackedGlobals d) : e.IsWithin f := by
  obtain ⟨x, hx, rfl⟩ := List.mem_map.1 (List.mem_filter.1 he).1
  intro y hy
  obtain rfl : y = x := by simpa [Expr.vars, Expr.subexprs, Expr.asVariable] using hy
  exact .inl (hwf.globals y hx)

theorem isWithin_of_mem_tracked (hfree : p.CallFree) {f : Function} {i : FunctionId}
    (hf : f.IsAt i) {e : Expr} (he : e ∈ p.tracked d f) : e.IsWithin (some i) := by
  rcases List.mem_append.1 (SortedSet.mem_ofList.1 he) with he | he
  · obtain ⟨x, hx, rfl⟩ := List.mem_map.1 (List.mem_filter.1 he).1
    intro y hy
    obtain rfl : y = x := by
      simpa [Expr.simplify, Expr.vars, Expr.subexprs, Expr.asVariable] using hy
    exact .inr (hf.2 y (List.mem_filter.1 hx).1)
  · obtain ⟨node, hnode, he⟩ := List.mem_flatMap.1 he
    obtain ⟨hnode, hfun⟩ := List.mem_filter.1 hnode
    obtain ⟨n, hn⟩ := List.getElem?_of_mem hnode
    rw [Array.getElem?_toList] at hn
    cases hstmt : node.stmt with
    | none => simp [hstmt] at he
    | some stmt =>
      have he := (List.mem_filter.1 he).1
      rw [hstmt] at he
      obtain ⟨x, hx, hex⟩ := List.mem_flatMap.1 he
      intro y hy
      have hy : y ∈ x.vars := by
        rw [← Expr.vars_simplify]
        exact Expr.mem_vars_of_mem_subexprs hex hy
      have hwithin := hfree.statements n stmt (by simp [stmtAt, hn, hstmt]) x hx y hy
      have hid : p.functionIdOf n = some i := by
        rw [functionIdOf, hn]
        exact (of_decide_eq_true hfun).trans (congrArg some hf.1)
      exact hid ▸ hwithin

end Program

namespace StatesContext

/-- What the passes over states rely on: the classes at a node are disjoint, each has a member
and is in scope, and edges lead to where the classes at their sources are in scope. -/
structure Regular (ctx : StatesContext) : Prop where
  disjoint : ∀ {n : NodeId} {c d : EquivClass} {e : Expr}, c ∈ ctx.classesAt n →
    d ∈ ctx.classesAt n → e ∈ c → e ∈ d → c = d
  nonempty : ∀ {n : NodeId} {c : EquivClass}, c ∈ ctx.classesAt n → ∃ e, e ∈ c
  kinds : ∀ {e : EdgeId} {edge : Edge}, ctx.program.edges[e]? = some edge →
    edge.kind = .root ∨ ∃ guard, edge.kind = .flow guard
  home : ∀ {n : NodeId} {c : EquivClass}, c ∈ ctx.classesAt n →
    EquivClass.isInScope c (ctx.program.functionIdOf n) = true
  scopes : ∀ {e : EdgeId} {edge : Edge} {c : EquivClass},
    ctx.program.edges[e]? = some edge → c ∈ ctx.classesAt edge.source →
    EquivClass.isInScope c (ctx.program.functionIdOf edge.target) = true
  root : ∀ {e : EdgeId} {edge : Edge},
    ctx.program.edges[e]? = some edge → edge.target ≠ Program.root

variable {p : Program} {a : Automaton} {facts : FactsSolution}

theorem mem_classesAt_of {n : NodeId} {c : EquivClass}
    (hc : c ∈ (StatesContext.of p a facts).classesAt n) :
    ∃ s, facts.value n = some s ∧
      c ∈ s.varClassesOf (((p.functionIdOf n).bind fun i => p.functions[i]?.map fun f =>
        (p.tracked a.stateful f).toList).getD [] ++ p.trackedGlobals a.stateful) := by
  unfold classesAt StatesContext.of at hc
  simp only [Array.getElem?_map] at hc
  cases hn : (Array.range p.nodes.size)[n]? with
  | none =>
    rw [hn] at hc
    exact absurd hc (SortedSet.not_mem_empty _)
  | some m =>
    obtain ⟨_, hm⟩ := Array.getElem?_eq_some_iff.1 hn
    obtain rfl : n = m := by simpa using hm
    rw [hn] at hc
    cases hs : facts.value n with
    | none =>
      simp only [hs, Option.map_some, Option.getD_some] at hc
      exact absurd hc (SortedSet.not_mem_empty _)
    | some s =>
      simp only [hs, Option.map_some, Option.getD_some] at hc
      exact ⟨s, rfl, hc⟩

theorem isWithin_of_mem_classesAt (hwf : p.WellFormed) (hfree : p.CallFree) {pass : String}
    {limit : Nat} (hs : p.factsProblem.solve pass limit = .ok facts) {n : NodeId}
    {c : EquivClass} (hc : c ∈ (StatesContext.of p a facts).classesAt n) {e : Expr}
    (he : e ∈ c) : e.IsWithin (p.functionIdOf n) := by
  obtain ⟨s, hn, hc⟩ := mem_classesAt_of hc
  refine Facts.isWithin_of_mem_varClassesOf (Program.factsWithin_of_value hfree hs hn).within
    (fun x hx => ?_) hc he
  rcases List.mem_append.1 hx with hx | hx
  · cases hf : p.functionIdOf n with
    | none => simp [hf] at hx
    | some i =>
      rw [hf, Option.bind_some] at hx
      cases hfun : p.functions[i]? with
      | none => simp [hfun] at hx
      | some f =>
        rw [hfun, Option.map_some, Option.getD_some] at hx
        exact Program.isWithin_of_mem_tracked hfree (hwf.functions i f hfun) hx
  · exact Program.isWithin_of_mem_trackedGlobals hwf hx

theorem disjoint_classesAt_of {n : NodeId} {c d : EquivClass} {e : Expr}
    (hc : c ∈ (StatesContext.of p a facts).classesAt n)
    (hd : d ∈ (StatesContext.of p a facts).classesAt n) (hec : e ∈ c) (hed : e ∈ d) : c = d := by
  obtain ⟨s, hn, hc⟩ := mem_classesAt_of hc
  obtain ⟨t, hn', hd⟩ := mem_classesAt_of hd
  obtain rfl := Option.some.inj (hn.symm.trans hn')
  exact Facts.disjoint_varClassesOf hc hd hec hed

theorem nonempty_classesAt_of {n : NodeId} {c : EquivClass}
    (hc : c ∈ (StatesContext.of p a facts).classesAt n) : ∃ e, e ∈ c := by
  obtain ⟨s, -, hc⟩ := mem_classesAt_of hc
  obtain ⟨e, -, he, -⟩ := Facts.mem_varClassesOf hc
  exact ⟨_, he⟩

theorem exists_mem_classesAt_of {n : NodeId} (hn : n < p.nodes.size)
    (hfacts : (facts.value n).isSome) {e : Expr} (he : e ∈ p.trackedGlobals a.stateful) :
    ∃ c ∈ (StatesContext.of p a facts).classesAt n, e.simplify ∈ c := by
  obtain ⟨s, hs⟩ := Option.isSome_iff_exists.1 hfacts
  have hclasses : ∃ l, (StatesContext.of p a facts).classesAt n =
      s.varClassesOf (l ++ p.trackedGlobals a.stateful) := by
    simp only [classesAt, StatesContext.of, Array.getElem?_map, Array.getElem?_range, hn, if_true,
      Option.map_some, Option.getD_some, hs]
    exact ⟨_, rfl⟩
  obtain ⟨l, hl⟩ := hclasses
  rw [hl]
  exact Facts.exists_mem_varClassesOf (List.mem_append_right l he)

/-- The context of a program free of calls is regular. -/
theorem regular_of (hwf : p.WellFormed) (hfree : p.CallFree) {pass : String} {limit : Nat}
    (hs : p.factsProblem.solve pass limit = .ok facts) : (StatesContext.of p a facts).Regular where
  disjoint := disjoint_classesAt_of
  nonempty := nonempty_classesAt_of
  home hc := EquivClass.isInScope_of_isWithin fun _ hx =>
    isWithin_of_mem_classesAt hwf hfree hs hc hx
  kinds := by
    intro e edge hedge
    rcases hfree.edges edge (Array.mem_of_getElem? hedge) with ⟨hkind, -⟩ | ⟨guard, -, hkind, -⟩
    · exact .inl hkind
    · exact .inr ⟨guard, hkind⟩
  scopes := by
    intro e edge c hedge hc
    apply EquivClass.isInScope_of_isWithin
    intro x hx
    have hwithin := isWithin_of_mem_classesAt hwf hfree hs hc hx
    rcases hfree.edges edge (Array.mem_of_getElem? hedge) with
      ⟨-, hsource⟩ | ⟨guard, f, -, hsource, htarget⟩
    · rw [hsource, hwf.functionIdOf_root] at hwithin
      exact fun y hy => .inl ((hwithin y hy).elim id id)
    · exact htarget ▸ hsource ▸ hwithin
  root := fun hedge => hfree.root _ (Array.mem_of_getElem? hedge)

end StatesContext

end Typestate

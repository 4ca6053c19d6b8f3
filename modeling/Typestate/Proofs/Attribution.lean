import Typestate.Proofs.States.Distribution
import Typestate.Proofs.Suppression

/-!
# What findings are about

A finding names the class in which a rule was tried and a state of this class. A rule is tried on
the value at the source of an edge, and then its findings are about the node that they are recorded
at. After a copy, though, rules that look for leaks are tried on the copied value, which has the
classes of the edge's target, and still their findings go to the source. They are about it if the
copy leaves their class as it was.
-/
namespace Typestate

namespace NodeStates

/-- A value has the class of a finding for its expression, and the finding's state for the class. -/
def Bears (v : NodeStates) (f : Finding) : Prop :=
  v.classOf f.expr = some f.cls ∧ v.map.MayBe f.cls f.state

instance {v : NodeStates} {f : Finding} : Decidable (v.Bears f) :=
  inferInstanceAs (Decidable
    (v.classOf f.expr = some f.cls ∧ ∃ s ∈ v.map.get? f.cls, f.state ∈ s))

end NodeStates

namespace StatesContext

open NodeStates

variable {ctx : StatesContext} {n n' : NodeId} {v w : NodeStates} {e : EdgeId} {edge : Edge}
  {c : EquivClass} {t : State} {f : Finding} {target source : Expr}

/-- The value that rules are tried on along an edge inside a function: after a copy the copied
one. -/
def triedOn (ctx : StatesContext) (edge : Edge) (v : NodeStates) : NodeStates :=
  match (ctx.program.stmtAt edge.source).bind Statement.copy? with
  | none => v
  | some (target, source) => ctx.copied v edge.target target source

theorem triedOn_of_copy_eq_none
    (h : (ctx.program.stmtAt edge.source).bind Statement.copy? = none) :
    ctx.triedOn edge v = v := by
  rw [triedOn, h]

theorem triedOn_of_copy
    (h : (ctx.program.stmtAt edge.source).bind Statement.copy? = some (target, source)) :
    ctx.triedOn edge v = ctx.copied v edge.target target source := by
  rw [triedOn, h]

theorem incidents_flow : (ctx.flow v e edge.source edge.target).incidents =
    (ctx.applied (ctx.triedOn edge v) edge.source edge.target
      (ctx.triedAt e edge.source)).incidents := by
  cases hcopy : (ctx.program.stmtAt edge.source).bind Statement.copy? with
  | none =>
    rw [triedOn_of_copy_eq_none hcopy, triedAt_of_copy_eq_none hcopy,
      flow_of_copy_eq_none hcopy]
  | some pair =>
    rw [triedOn_of_copy hcopy, triedAt_of_copy hcopy, incidents_flow_of_copy hcopy]

/-- A finding is recorded at the source of an edge inside a function. It has the expression of a
rule that is tried there, and the value that the rule is tried on bears it. -/
theorem bears_of_mem_incidents (he : ctx.program.edges[e]? = some edge)
    (h : .finding f ∈ (ctx.transfer v e).incidents) :
    f.node = edge.source ∧ (ctx.triedOn edge v).Bears f ∧
      (∃ m ∈ ctx.triedAt e edge.source, m.expr = f.expr) ∧
      ∃ guard, edge.kind = .flow guard ∧ ctx.isFeasible e = true := by
  cases ctx.conducts e with
  | blocked heq | root _ _ heq | enter _ _ heq | leave _ _ heq =>
    rw [heq] at h
    cases h
  | @flow edge' guard he' hf hk heq =>
    obtain rfl := Option.some.inj (he.symm.trans he')
    rw [heq, incidents_flow, mem_incidents_applied_iff] at h
    obtain ⟨m, hm, c, s, hc, hs, -, hfire⟩ := h
    obtain ⟨r, rfl⟩ := mem_incidents_fire hfire
    exact ⟨rfl, ⟨hc, hs⟩, ⟨m, hm, rfl⟩, guard, hk, hf⟩

/-- Whether a copy at the source of an edge leaves a class as it was: the class is one of the source
and in scope at the target, and if it holds what is copied to, it holds what is copied. -/
def KeepsClass (ctx : StatesContext) (edge : Edge) (c : EquivClass) : Prop :=
  ∀ copy ∈ (ctx.program.stmtAt edge.source).bind Statement.copy?,
    c ∈ ctx.classesAt edge.source ∧
      EquivClass.isInScope c (ctx.program.functionIdOf edge.target) = true ∧
      (copy.1 ∈ c → copy.2.simplify ∈ c)

instance : Decidable (ctx.KeepsClass edge c) :=
  inferInstanceAs (Decidable (∀ copy ∈ (ctx.program.stmtAt edge.source).bind Statement.copy?, _))

section Partitioned

variable (hparted : ctx.Partitioned) (hw : ctx.Covers n w) (hc : c ∈ ctx.classesAt n)
include hparted hw hc

/-- The class of an expression is the one at the node that holds it, if no class from elsewhere
does. -/
theorem classOf_of_own {x : Expr} (hx : x.simplify ∈ c)
    (hown : ∀ d s, x.simplify ∈ d → w.map.get? d = some s → d ∈ ctx.classesAt n) :
    w.classOf x = some c := by
  have hkey := SortedMap.mem_keys_iff.2 (hw.classes hc)
  cases hd : w.classOf x with
  | none =>
    rw [classOf_eq_find?] at hd
    exact absurd (decide_eq_true hx) (List.find?_eq_none.1 hd c hkey)
  | some d =>
    obtain ⟨hxd, s, hs⟩ := mem_of_classOf hd
    rw [hparted.disjoint (hown d s hxd hs) hc hxd hx]

theorem mayBe_of_copied (hscope : EquivClass.isInScope c (ctx.program.functionIdOf n') = true)
    (hsource : target ∈ c → w.classOf source = some c)
    (hown : ∀ d s, w.map.get? d = some s →
      EquivClass.isInScope d (ctx.program.functionIdOf n') = true → d ∈ ctx.classesAt n)
    (h : (ctx.copied w n' target source).map.MayBe c t) : w.map.MayBe c t := by
  obtain ⟨s, hs⟩ := hw.classes hc
  have hcopied : target ∈ c → (w.statesOf source).getD ctx.defaults = s := by
    intro htarget
    rw [statesOf_eq_bind, hsource htarget, Option.bind_some, hs, Option.getD_some]
  unfold copied at h
  rw [mayBe_regroup_iff] at h
  rcases h with ⟨-, h⟩ | ⟨s', hs', -⟩
  · rcases mem_gather.1 h with ⟨x, hx, h⟩ | ⟨hnone, -⟩
    · rw [SortedMap.mayBe_insert] at h
      split at h
      · rename_i htarget
        exact ⟨s, hs, hcopied (htarget ▸ hx) ▸ h⟩
      · obtain ⟨d, hxd, hd, s', hs', ht⟩ := mayBe_flatten.1 h
        obtain rfl := hparted.disjoint (hown d s' hs' hd) hc hxd hx
        exact ⟨s', hs', ht⟩
    · obtain ⟨x, hx⟩ := hparted.nonempty hc
      obtain ⟨t', ht'⟩ := hw.nonempty hs
      refine absurd ?_ (hnone x hx t')
      rw [SortedMap.mayBe_insert]
      split
      · rename_i htarget
        exact (hcopied (htarget ▸ hx)).symm ▸ ht'
      · exact mayBe_flatten.2 ⟨c, hx, hscope, s, hs, ht'⟩
  · rw [get?_carried, if_pos hscope] at hs'
    cases hs'

end Partitioned

/-- If an edge looks at classes of its source only, then its findings are about the source, except
for those that are raised after a copy in a class which the copy changes. -/
theorem bears_of_keepsClass (hparted : ctx.Partitioned)
    (he : ctx.program.edges[e]? = some edge) (hw : ctx.Covers edge.source w)
    (hown : ctx.LooksAtOwn e edge w) (h : .finding f ∈ (ctx.transfer w e).incidents)
    (hkeeps : ctx.KeepsClass edge f.cls) : w.Bears f := by
  obtain ⟨-, hbears, ⟨m, hm, hexpr⟩, guard, hk, hf⟩ := bears_of_mem_incidents he h
  have hown := hown guard hk hf
  cases hcopy : (ctx.program.stmtAt edge.source).bind Statement.copy? with
  | none => rwa [triedOn_of_copy_eq_none hcopy] at hbears
  | some pair =>
    obtain ⟨target, source⟩ := pair
    obtain ⟨hc, hscope, hsource⟩ := hkeeps (target, source) hcopy
    rw [triedOn_of_copy hcopy] at hbears
    obtain ⟨hclass, hmay⟩ := hbears
    constructor
    · refine classOf_of_own hparted hw hc (mem_of_classOf hclass).1 fun d s hd hs => ?_
      exact hown d s hs (looksAt_of_mem_triedAt hm (hexpr ▸ hd))
    · refine mayBe_of_copied hparted hw hc hscope (fun htarget => ?_) (fun d s hs hd => ?_) hmay
      · exact classOf_of_own hparted hw hc (hsource htarget) fun d s hd hs =>
          hown d s hs (looksAt_of_copy hcopy (.inl hd))
      · exact hown d s hs (looksAt_of_copy hcopy (.inr hd))

end StatesContext

namespace Analysis

variable {p : Program} {m : Automaton} {limit : Nat} {a : Analysis} {f : Finding}

/-- What is recorded is raised by a value at or below the final one, however often the graph was
exploded. -/
theorem exists_emits_of_mem_findings (hwf : p.WellFormed) (ha : solve p m limit = .ok a)
    {l : List Settings} (hf : f ∈ (a.refinedBy l).log.findings) : ∃ n v w,
      a.statesAt n = some w ∧ v.Below w ∧ a.context.Covers n v ∧ a.context.Covers n w ∧
      a.context.problem.Emits n v (.finding f) := by
  obtain ⟨facts, -, -, hs⟩ := solve_eq_ok ha
  have hcovers := preserves_covers hwf ha
  obtain ⟨incidents, heq, hall⟩ := a.exists_refinedBy l
  rw [heq] at hf
  rcases Log.mem_findings_addAll hf with hf | hf
  · rw [log_of_solve ha] at hf
    have hevent := (Log.mem_findings_addAll hf).resolve_left List.not_mem_nil
    obtain ⟨n, v, w, hw, hvw, hv, hemits⟩ :=
      hcovers.exists_emits_of_mem_events (StatesContext.rises_problem _) hs hevent
    exact ⟨n, v, w, hw, hvw, hv, hcovers.solve hs hw, hemits⟩
  · obtain ⟨n, w, x, hw, hx, hemits⟩ := hall _ hf
    have hcw := hcovers.solve hs hw
    exact ⟨n, x.states, w, hw, (NodeStates.below_of_mem_explode hx).1, hcw.of_mem_explode hx, hcw,
      hemits⟩

/-- What each recorded finding is about, however often the graph was exploded. It was raised along
an edge out of its node, and it has the class of its expression, and a state of this class, in the
value that the rules were tried on. Unless the edge leaves a copy, the final value at the node has
the state for the class. If the edge looks at classes of its source only, the final value may be
taken for the one that raised the finding, and it bears the finding itself unless the edge leaves a
copy that changes the class. -/
theorem exists_bears_of_mem_findings (hwf : p.WellFormed) (ha : solve p m limit = .ok a)
    (l : List Settings) (hf : f ∈ (a.refinedBy l).log.findings) : ∃ e edge v w,
      a.context.program.edges[e]? = some edge ∧ edge.source = f.node ∧
      a.statesAt f.node = some w ∧ v.Below w ∧ (a.context.triedOn edge v).Bears f ∧
      (¬ a.context.Copies e → w.map.MayBe f.cls f.state) ∧
      (a.context.LooksAtOwn e edge w → (a.context.triedOn edge w).Bears f ∧
        (a.context.KeepsClass edge f.cls → w.Bears f)) := by
  obtain ⟨n, v, w, hw, hvw, hv, hcw, x, hx, hi⟩ := exists_emits_of_mem_findings hwf ha hf
  obtain ⟨edge, he, rfl, -⟩ := Program.mem_successors.1 hx
  obtain ⟨hnode, hbears, -⟩ := StatesContext.bears_of_mem_incidents he hi
  have hparted : a.context.Partitioned := by
    obtain ⟨facts, -, hctx, -⟩ := solve_eq_ok ha
    exact hctx ▸ StatesContext.partitioned_of
  refine ⟨x.1, edge, v, w, he, hnode.symm, hnode ▸ hw, hvw, hbears, fun hcopy => ?_,
    fun hown => ?_⟩
  · have hnone := StatesContext.copy?_eq_none he hcopy
    rw [StatesContext.triedOn_of_copy_eq_none hnone] at hbears
    exact hvw _ _ hbears.2
  · have hi := StatesContext.incidents_transfer_of_below he hv hvw hown hi
    exact ⟨(StatesContext.bears_of_mem_incidents he hi).2.1,
      StatesContext.bears_of_keepsClass hparted he hcw hown hi⟩

/-- The program `q = malloc(8); x = malloc(8);` with parameters `p` and `q` and a local `x`, which
goes on with `x = q;` or with `q = p;`. -/
def overwriting (moves : Bool) : Program :=
  let p : Variable := ⟨"p", some 0, .param, .pointer⟩
  let q : Variable := ⟨"q", some 0, .param, .pointer⟩
  let x : Variable := ⟨"x", some 0, .localVar, .pointer⟩
  let node (kind : NodeKind) : Node := ⟨some 0, kind, none, none⟩
  let stmt (stmt : Statement) (line : Nat) : Node :=
    ⟨some 0, .statement, some stmt, some ⟨"test.c", line, 3⟩⟩
  { nodes := #[⟨none, .root, none, none⟩, node .entry, node .exit,
      stmt (.call (some (.var q)) "malloc" [.lit 8]) 2,
      stmt (.call (some (.var x)) "malloc" [.lit 8]) 3,
      stmt (if moves then .assign (.var x) (.use (.var q)) else .assign (.var q) (.use (.var p))) 4]
    edges := #[⟨1, 3, .flow .always⟩, ⟨3, 4, .flow .always⟩, ⟨4, 5, .flow .always⟩,
      ⟨5, 2, .flow .always⟩, ⟨0, 1, .root⟩]
    functions := #[⟨0, "test", [p, q], [x], 1, 2, none, some ⟨"test.c", 1, 1⟩,
      some ⟨"test.c", 9, 1⟩⟩]
    globals := [] }

/-- If `q` is overwritten, the copy leaves the class of `x` as it was, and the leak of `x` is about
the node that it is recorded at. -/
theorem exists_bears_of_mem_findings_overwriting : ∃ a f w,
    solve (overwriting false) leaks (Settings.ofPreset .fast).maxVisits = .ok a ∧
    f ∈ a.log.findings ∧ f.node = 5 ∧ a.statesAt f.node = some w ∧ w.Bears f := by
  obtain ⟨a, ha, htest⟩ := exists_eq_ok_of_any
    (solve (overwriting false) leaks (Settings.ofPreset .fast).maxVisits)
    (fun a => a.allFinal a.looksInside && a.log.findings.any fun f => decide (f.node = 5) &&
      a.allFinal fun _ edge _ =>
        decide (edge.source = f.node → a.context.KeepsClass edge f.cls))
    (by decide +kernel)
  obtain ⟨hown, hfound⟩ := Bool.and_eq_true_iff.1 htest
  obtain ⟨f, hf, htest⟩ := List.any_eq_true.1 hfound
  obtain ⟨hnode, hkeeps⟩ := Bool.and_eq_true_iff.1 htest
  obtain ⟨e, edge, v, w, he, hsource, hw, -, -, -, hfinal⟩ :=
    exists_bears_of_mem_findings (by decide) ha [] hf
  have hv : a.statesAt edge.source = some w := hsource ▸ hw
  have hkeeps := of_decide_eq_true (of_allFinal hkeeps he hv) hsource
  refine ⟨a, f, w, ha, hf, of_decide_eq_true hnode, hw, ?_⟩
  exact (hfinal (looksAtOwn_of_allFinal hown e edge w he hv)).2 hkeeps

/-- If `x` is, it leaks as soon as it has got the allocation of `q`. The leak is recorded at the
copy for the class of both, but `x` is in a class of its own there. -/
theorem overwriting_finding_not_bears : ∃ a f w, (overwriting true).WellFormed ∧
    solve (overwriting true) leaks (Settings.ofPreset .fast).maxVisits = .ok a ∧
    f ∈ a.log.findings ∧ a.statesAt f.node = some w ∧ ¬ w.Bears f ∧
    ∃ c, w.classOf f.expr = some c ∧ c ≠ f.cls ∧ w.map.MayBe c f.state := by
  obtain ⟨a, ha, htest⟩ := exists_eq_ok_of_any
    (solve (overwriting true) leaks (Settings.ofPreset .fast).maxVisits)
    (fun a => a.log.findings.any fun f => (a.statesAt f.node).any fun w =>
      (w.classOf f.expr).any fun c =>
        decide (c ≠ f.cls) && (w.map.get? c).any fun s => decide (f.state ∈ s))
    (by decide +kernel)
  simp only [List.any_eq_true, Option.any_eq_true, Bool.and_eq_true, decide_eq_true_eq] at htest
  obtain ⟨f, hf, w, hw, c, hc, hne, s, hs, ht⟩ := htest
  refine ⟨a, f, w, by decide, ha, hf, hw, fun hbears => hne ?_, c, hc, hne, s, hs, ht⟩
  exact Option.some.inj (hc.symm.trans hbears.1)

end Analysis

end Typestate

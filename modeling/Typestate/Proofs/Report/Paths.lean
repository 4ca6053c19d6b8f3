import Typestate.Proofs.Nesting
import Typestate.Proofs.Report.Target

/-!
# Calls and returns along witnesses

The path to a finding leads along edges of the program from the root. An exploded graph does not
tell the calls of a function apart, so a shortest path may enter a function from one call and
leave it for the return site of another. But each return leaves the function that the latest open
call entered, so it returns to that call if the graph enters the function from no other.
-/
namespace Typestate

namespace ExplodedGraph

/-- The edge of a program that an edge of an exploded graph stands for. -/
def edgeOf (g : ExplodedGraph) (p : Program) (k : EdgeId) : Option Edge :=
  (g.edges.get? k).bind (p.edges[·.edge]?)

/-- Whether a node of an exploded graph stands for one of the program. -/
def StandsAt (g : ExplodedGraph) (i n : NodeId) : Prop :=
  ∃ x, g.nodes.get? i = some x ∧ x.node = n

/-- An exploded graph of a program: its entry stands for the root, and each edge stands for an edge
between the nodes that its ends stand for. -/
structure Unfolds (g : ExplodedGraph) (p : Program) : Prop where
  entry : g.StandsAt g.entry Program.root
  edges : ∀ {k x}, g.edges.get? k = some x → ∃ edge, p.edges[x.edge]? = some edge ∧
    g.StandsAt x.source edge.source ∧ g.StandsAt x.target edge.target

/-- Whether the edges of an exploded graph enter a function by calls at one node only. -/
def CalledOnlyAt (g : ExplodedGraph) (p : Program) (c : NodeId) (f : Option FunctionId) : Prop :=
  ∀ k edge, g.edgeOf p k = some edge → edge.kind = .enter → p.functionIdOf edge.target = f →
    edge.source = c

/-- What is certain of the returns along edges. -/
structure Returns (g : ExplodedGraph) (p : Program) (walk : List Edge) : Prop where
  /-- A return leaves the function that the latest open call entered, and names that call if the
  function is called nowhere else than where the return names. Nothing is asked of the edges in
  front, where a return may have named another call than the one that it closed. -/
  called : ∀ (front : List Edge) {back rest leave c call outer},
    walk = front ++ back ++ leave :: rest → leave.kind = .leave c →
    Program.openCalls back = some (call :: outer) →
    call.kind = .enter ∧ p.functionIdOf leave.source = p.functionIdOf call.target ∧
      (g.CalledOnlyAt p c (p.functionIdOf leave.source) → call.source = c)
  /-- A return that no open call comes before leaves a function that was entered from the root. -/
  entered : ∀ {back rest leave c}, walk = back ++ leave :: rest → leave.kind = .leave c →
    Program.openCalls back = some [] →
    ∃ edge ∈ back, edge.kind = .root ∧ p.functionIdOf edge.target = p.functionIdOf leave.source

variable {g : ExplodedGraph} {p : Program} {i n m : NodeId} {walk : List Edge}

theorem StandsAt.unique (hn : g.StandsAt i n) (hm : g.StandsAt i m) : n = m := by
  obtain ⟨x, hx, rfl⟩ := hn
  obtain ⟨y, hy, rfl⟩ := hm
  rw [hx] at hy
  rw [Option.some.inj hy]

section Keep

variable {test : NodeId → Bool}

theorem StandsAt.keep (h : g.StandsAt i n) (ht : test i = true) : (g.keep test).StandsAt i n := by
  obtain ⟨x, hx, hn⟩ := h
  exact ⟨x, get?_nodes_keep.2 ⟨hx, ht⟩, hn⟩

theorem Unfolds.keep (h : g.Unfolds p) (hentry : test g.entry = true) :
    (g.keep test).Unfolds p where
  entry := h.entry.keep hentry
  edges hx := by
    obtain ⟨hx, hsource, htarget⟩ := get?_edges_keep.1 hx
    obtain ⟨edge, he, hs, ht⟩ := h.edges hx
    exact ⟨edge, he, hs.keep hsource, ht.keep htarget⟩

end Keep

theorem unfolds_prune {limit rounds : Nat} {left : ExplodedGraph} {stats : PruneStats}
    (hg : g.Closed) (hu : g.Unfolds p) (h : g.prune p limit rounds = .ok (left, stats)) :
    left.Unfolds p := by
  refine (prune_induction (P := fun left => left.Closed ∧ left.Unfolds p) ?_ ⟨hg, hu⟩ h).2
  intro g facts hg _
  refine ⟨closed_pruneBy hg.1 facts, ?_⟩
  have hentry : g.isSupported facts g.entry = true := by simp [isSupported]
  exact (hg.2.keep hentry).keep (routes_closed (hg.1.keep hentry)).1

/-- A route stands for a walk of the program from the root. -/
theorem Leads.exists_walk (hg : g.Unfolds p) {route : List EdgeId} (h : g.Leads route i) :
    ∃ walk n, g.StandsAt i n ∧ route.reverse.map (g.edgeOf p) = walk.map some ∧
      p.Walks Program.root walk n := by
  induction h with
  | start => exact ⟨[], _, hg.entry, rfl, .nil _⟩
  | @extend route k x _ hx ih =>
    obtain ⟨walk, n, hn, hmap, hwalk⟩ := ih
    obtain ⟨edge, he, hsource, htarget⟩ := hg.edges hx
    obtain rfl := hn.unique hsource
    refine ⟨walk ++ [edge], _, htarget, ?_,
      Program.walks_snoc.2 ⟨hwalk, Array.mem_of_getElem? he, rfl⟩⟩
    have hedge : g.edgeOf p k = some edge := by rw [edgeOf, hx, Option.bind_some, he]
    simp [hmap, hedge]

theorem returns_of_walks (hp : p.Framed) (hroot : p.functionIdOf Program.root = none)
    (hwalk : p.Walks Program.root walk n)
    (hedges : ∀ edge ∈ walk, ∃ k, g.edgeOf p k = some edge) : g.Returns p walk where
  called front back rest leave c call outer heq hk hs := by
    obtain ⟨m, hbefore, hafter⟩ := Program.walks_append.1 (heq ▸ hwalk)
    obtain ⟨j, -, hback⟩ := Program.walks_append.1 hbefore
    cases hafter with
    | cons _ _ =>
      obtain ⟨hkind, hf⟩ := Program.functionIdOf_of_open hp hback hs
      refine ⟨hkind, hf, fun honly => ?_⟩
      have hcall := Program.mem_of_openCalls hs call (by simp)
      obtain ⟨k, hedge⟩ := hedges call (by simp [heq, hcall])
      exact honly k call hedge hkind hf.symm
  entered {back rest leave c} heq hk hs := by
    obtain ⟨m, hback, hafter⟩ := Program.walks_append.1 (heq ▸ hwalk)
    cases hafter with
    | cons hleave _ =>
      have hframed := hp leave hleave
      unfold Program.IsFramed at hframed
      rw [hk] at hframed
      exact Program.exists_root_edge hp hroot hback hs hframed.1

/-- If each function that a path returns from is called only where its return names, and is not
entered from the root, all returns close the calls that they name. -/
theorem Returns.isSome_openCalls (h : g.Returns p walk)
    (honly : ∀ leave ∈ walk, ∀ c, leave.kind = .leave c →
      g.CalledOnlyAt p c (p.functionIdOf leave.source) ∧
      ∀ edge ∈ walk, edge.kind = .root → p.functionIdOf edge.target ≠ p.functionIdOf leave.source) :
    (Program.openCalls walk).isSome := by
  have hprefix : ∀ back rest, walk = back ++ rest → (Program.openCalls back).isSome := by
    intro back
    induction back using List.reverseRecOn with
    | nil => exact fun _ _ => rfl
    | append_singleton back edge ih =>
      intro rest heq
      rw [List.append_assoc] at heq
      obtain ⟨stack, hs⟩ := Option.isSome_iff_exists.1 (ih _ heq)
      rw [Program.openCalls_snoc, hs, Option.bind_some]
      unfold Program.nest
      cases hk : edge.kind with
      | flow | callToReturn | enter | root => rfl
      | leave c =>
        obtain ⟨hcalled, hroot⟩ := honly edge (by simp [heq]) c hk
        cases stack with
        | nil =>
          obtain ⟨first, hfirst, hkind, hf⟩ := h.entered heq hk hs
          exact absurd hf (hroot first (by simp [heq, hfirst]) hkind)
        | cons call outer =>
          obtain ⟨-, -, hnames⟩ := h.called [] heq hk hs
          simp [hnames hcalled]
  exact hprefix walk [] (by simp)

end ExplodedGraph

theorem StatesContext.unfolds_explode {ctx : StatesContext} {states : NodeId → Option NodeStates}
    {limit : Nat} {g : ExplodedGraph} {incidents : List Incident}
    (h : ctx.explode states limit = .ok (.built g, incidents)) : g.Unfolds ctx.program where
  entry := (explode_eq_built h).2.1
  edges {k y} hy := by
    obtain ⟨i, x, e, target, v, d, hx, he, -, hd, rfl⟩ := (get?_edges_explode h).1 ⟨k, hy⟩
    obtain ⟨edge, hedge, hsource, rfl⟩ := Program.mem_successors.1 he
    obtain ⟨hd, htarget⟩ := List.mem_filter.1 (mem_of_mem_destinations hd)
    exact ⟨edge, hedge, ⟨x, hx, hsource.symm⟩,
      ⟨d.2, SortedMap.mem_entries_iff.1 hd, of_decide_eq_true htarget⟩⟩

namespace Analysis

open ExplodedGraph

variable {p : Program} {m : Automaton} {s : Settings} {a : Analysis} {r : RunReport}

/-- The path to the target of a reported finding leads along edges of the program from the root to
the node of the finding. Each return on it leaves the function that the latest open call entered, or
one that was entered from the root if no call is open. It names that call if the function is called
nowhere else in the pruned graph, so all returns do if this holds of each function that the path
returns from, and none of these is entered from the root. -/
theorem run_returns_from_open_calls (hwf : p.WellFormed) (hp : p.Framed)
    (ha : solve p m s.maxVisits = .ok a) (hrun : run p m s = .ok (.analyzed r)) :
    ∃ g stats, (a.refine s).1 = .ok (.pruned g stats) ∧ r = (a.refine s).2.conclude s g stats ∧
      ∀ f report, g.report? p g.routes m.name s.notes f = some report →
        ∃ target path walk, g.target? g.routes f = some target ∧
          g.routes.path target = some path ∧ path.map (g.edgeOf p) = walk.map some ∧
          p.Walks Program.root walk f.node ∧ g.Returns p walk ∧
          ((∀ leave ∈ walk, ∀ c, leave.kind = .leave c →
            g.CalledOnlyAt p c (p.functionIdOf leave.source) ∧ ∀ edge ∈ walk, edge.kind = .root →
              p.functionIdOf edge.target ≠ p.functionIdOf leave.source) →
            (Program.openCalls walk).isSome) := by
  obtain ⟨g, stats, hpruned, rfl⟩ := run_eq_analyzed ha hrun
  obtain ⟨built, incidents, hbuilt, hprune, -⟩ := refine_eq_pruned hpruned
  obtain ⟨facts, -, hctx, -⟩ := solve_eq_ok ha
  have hprogram : a.context.program = p := by rw [hctx]; rfl
  have hunfolds := StatesContext.unfolds_explode hbuilt
  rw [hprogram] at hunfolds hprune
  have hg := unfolds_prune (StatesContext.closed_explode hbuilt) hunfolds hprune
  refine ⟨g, stats, hpruned, rfl, fun f report hreport => ?_⟩
  obtain ⟨target, htarget⟩ := exists_target?_of_report? hreport
  obtain ⟨x, hx⟩ := exists_reachedAt_of_target? htarget
  obtain ⟨route, hroute⟩ := Option.isSome_iff_exists.1 (contains_target? htarget)
  obtain ⟨walk, n, hn, hmap, hwalk⟩ := (leads_of_routes hroute).exists_walk hg
  obtain rfl : n = f.node := hn.unique ⟨x, hx.live, hx.node⟩
  have hedges : ∀ edge ∈ walk, ∃ k, g.edgeOf p k = some edge := by
    intro edge hedge
    have hmem : some edge ∈ route.reverse.map (g.edgeOf p) :=
      hmap ▸ List.mem_map_of_mem hedge
    obtain ⟨k, -, hk⟩ := List.mem_map.1 hmem
    exact ⟨k, hk⟩
  have hreturns := returns_of_walks hp hwf.functionIdOf_root hwalk hedges
  refine ⟨target, route.reverse, walk, htarget, ?_, hmap, hwalk, hreturns,
    hreturns.isSome_openCalls⟩
  rw [Routes.path, hroute, Option.map_some]

section Detouring

/-- The program `main(p) { if (*) f(); else { ; f(); use(p); } }` with an empty function `f`, or
with an empty statement in place of the first call. -/
def detouring (both : Bool) : Program :=
  let p : Variable := ⟨"p", some 0, .param, .pointer⟩
  let node (f : FunctionId) (kind : NodeKind) : Node := ⟨some f, kind, none, none⟩
  let stmt (kind : NodeKind) (stmt : Option Statement) (line : Nat) : Node :=
    ⟨some 0, kind, stmt, some ⟨"test.c", line, 3⟩⟩
  { nodes := #[⟨none, .root, none, none⟩, node 0 .entry, node 0 .exit, node 1 .entry, node 1 .exit,
      if both then stmt .call (some (.call none "f" [])) 2 else stmt .statement (some .nop) 2,
      if both then stmt .returnSite none 2 else stmt .statement (some .nop) 2,
      stmt .statement (some .nop) 4, stmt .call (some (.call none "f" [])) 5,
      stmt .returnSite none 5, stmt .statement (some (.call none "use" [.var p])) 6]
    edges := (if both then #[⟨5, 3, .enter⟩, ⟨5, 6, .callToReturn⟩, ⟨4, 6, .leave 5⟩] else #[]) ++
      #[⟨8, 3, .enter⟩, ⟨8, 9, .callToReturn⟩, ⟨4, 9, .leave 8⟩, ⟨1, 5, .flow .always⟩,
        ⟨1, 7, .flow .always⟩, ⟨7, 8, .flow .always⟩, ⟨6, 2, .flow .always⟩, ⟨9, 10, .flow .always⟩,
        ⟨10, 2, .flow .always⟩, ⟨3, 4, .flow .always⟩] ++
      if both then #[⟨0, 1, .root⟩] else #[⟨5, 6, .flow .always⟩, ⟨0, 1, .root⟩]
    functions := #[⟨0, "main", [p], [], 1, 2, none, some ⟨"test.c", 1, 1⟩, some ⟨"test.c", 9, 1⟩⟩,
      ⟨1, "f", [], [], 3, 4, none, some ⟨"test.c", 10, 1⟩, some ⟨"test.c", 11, 1⟩⟩]
    globals := [] }

def everyUse : Automaton :=
  let ptr : Decl := ⟨"ptr", .anyPointer, true, none⟩
  let machine : Machine :=
    { name := "uses"
      clauses := [.decl ptr,
        .states ⟨["ptr.start"], [⟨.shape (.callArgs "use" [.decl "ptr"]),
          [.error "use of \x7bptr\x7d" none], none⟩], none⟩] }
  machine.automaton ptr

/-- Whether a finding has a target, and the path to it stands for the given edges. -/
def leadsAlong (walk : List Edge) (p : Program) (_ : Analysis) (g : ExplodedGraph)
    (l : List Finding) : Bool :=
  l.any fun f => (g.target? g.routes f).any fun j => (g.routes.path j).any fun path =>
    decide (path.map (g.edgeOf p) = walk.map some)

/-- Whether the path to the target of a reported use stands for the given edges. -/
def ReportsAlong (p : Program) (walk : List Edge) : Prop :=
  ∃ a r g stats f report target path,
    solve p everyUse (Settings.ofPreset .fast).maxVisits = .ok a ∧
    run p everyUse (.ofPreset .fast) = .ok (.analyzed r) ∧
    (a.refine (.ofPreset .fast)).1 = .ok (.pruned g stats) ∧
    f ∈ (a.refine (.ofPreset .fast)).2.log.findings ∧
    g.report? p g.routes everyUse.name (Settings.ofPreset .fast).notes f = some report ∧
    g.target? g.routes f = some target ∧ g.routes.path target = some path ∧
    path.map (g.edgeOf p) = walk.map some

theorem reportsAlong {walk : List Edge}
    (hsize : p.nodes.size ≤ (Settings.ofPreset .fast).maxNodes)
    (h : (stages p everyUse (.ofPreset .fast)).any
      (fun x => leadsAlong walk p x.1 x.2.1 x.2.2) = true) : ReportsAlong p walk := by
  obtain ⟨a, g, stats, ha, hpruned, hrun, htest⟩ := exists_of_stages hsize (leadsAlong walk p) h
  obtain ⟨f, hf, htest⟩ := List.any_eq_true.1 htest
  obtain ⟨target, htarget, htest⟩ := (Option.any_eq_true _ _).1 htest
  obtain ⟨path, hpath, hmap⟩ := (Option.any_eq_true _ _).1 htest
  obtain ⟨report, hreport, -⟩ := exists_report? p everyUse.name (Settings.ofPreset .fast).notes
    htarget (contains_target? htarget)
  exact ⟨a, _, g, stats, f, report, target, path, ha, hrun, hpruned, hf, hreport, htarget, hpath,
    of_decide_eq_true hmap⟩

/-- If `f` is called once, the path to the use of `p` goes through that call. -/
theorem run_returns_from_open_calls_detouring : ∃ a r g stats f target path walk,
    solve (detouring false) everyUse (Settings.ofPreset .fast).maxVisits = .ok a ∧
    run (detouring false) everyUse (.ofPreset .fast) = .ok (.analyzed r) ∧
    (a.refine (.ofPreset .fast)).1 = .ok (.pruned g stats) ∧
    f ∈ (a.refine (.ofPreset .fast)).2.log.findings ∧ g.target? g.routes f = some target ∧
    g.routes.path target = some path ∧ path.map (g.edgeOf (detouring false)) = walk.map some ∧
    ⟨4, 9, .leave 8⟩ ∈ walk ∧ (Program.openCalls walk).isSome := by
  obtain ⟨a, r, g, stats, f, report, target, path, ha, hrun, hpruned, hf, hreport, htarget, hpath,
    hmap⟩ : ReportsAlong (detouring false) [⟨0, 1, .root⟩, ⟨1, 7, .flow .always⟩,
      ⟨7, 8, .flow .always⟩, ⟨8, 3, .enter⟩, ⟨3, 4, .flow .always⟩, ⟨4, 9, .leave 8⟩,
      ⟨9, 10, .flow .always⟩] := reportsAlong (by decide) (by decide +kernel)
  obtain ⟨g', stats', hpruned', -, hall⟩ :=
    run_returns_from_open_calls (by decide) (by decide) ha hrun
  obtain rfl : g = g' := by
    have heq := hpruned.symm.trans hpruned'
    cases heq
    rfl
  obtain ⟨target', path', walk, htarget', hpath', hmap', -, -, hmatched⟩ := hall f report hreport
  obtain rfl : target = target' := Option.some.inj (htarget.symm.trans htarget')
  obtain rfl : path = path' := Option.some.inj (hpath.symm.trans hpath')
  obtain rfl := (List.map_inj_right fun _ _ => Option.some.inj).1 (hmap'.symm.trans hmap)
  refine ⟨a, r, g, stats, f, target, path, _, ha, hrun, hpruned, hf, htarget, hpath, hmap,
    by decide, hmatched fun leave hleave c hk => ?_⟩
  have hcalls : ∀ edge ∈ (detouring false).edges, edge.kind = .enter → edge.source = 8 := by decide
  obtain ⟨rfl, rfl⟩ : leave = ⟨4, 9, .leave 8⟩ ∧ c = 8 := by
    simp only [List.mem_cons, List.not_mem_nil, or_false] at hleave
    rcases hleave with rfl | rfl | rfl | rfl | rfl | rfl | rfl <;> cases hk
    exact ⟨rfl, rfl⟩
  refine ⟨fun k edge hedge hkind _ => ?_, by decide⟩
  obtain ⟨x, -, hx⟩ := Option.bind_eq_some_iff.1 hedge
  exact hcalls edge (Array.mem_of_getElem? hx) hkind

/-- `detouring` with one call of `f` and with an edge from the start of `main` to that of `f`. -/
def straying : Program :=
  { detouring false with edges := (detouring false).edges.push ⟨1, 3, .flow .always⟩ }

/-- If `f` is called twice, the path to the use of `p` enters it from the first call, which is
nearer, and goes on behind the second. If an edge strays into `f`, the path takes it and returns
from `f` without a call. -/
theorem detouring_returns_elsewhere :
    (∃ front leave rest call, (detouring true).WellFormed ∧ (detouring true).Framed ∧
      ReportsAlong (detouring true) (front ++ leave :: rest) ∧
      Program.openCalls front = some [call] ∧ leave.kind = .leave 8 ∧ call.source = 5) ∧
    ∃ front leave rest, straying.WellFormed ∧ ReportsAlong straying (front ++ leave :: rest) ∧
      Program.openCalls front = some [] ∧ leave.kind = .leave 8 ∧
      ∀ edge ∈ front, edge.kind = .root →
        straying.functionIdOf edge.target ≠ straying.functionIdOf leave.source := by
  constructor
  · exact ⟨[⟨0, 1, .root⟩, ⟨1, 5, .flow .always⟩, ⟨5, 3, .enter⟩, ⟨3, 4, .flow .always⟩],
      ⟨4, 9, .leave 8⟩, [⟨9, 10, .flow .always⟩], ⟨5, 3, .enter⟩, by decide, by decide,
      reportsAlong (by decide) (by decide +kernel), rfl, rfl, rfl⟩
  · exact ⟨[⟨0, 1, .root⟩, ⟨1, 3, .flow .always⟩, ⟨3, 4, .flow .always⟩], ⟨4, 9, .leave 8⟩,
      [⟨9, 10, .flow .always⟩], by decide, reportsAlong (by decide) (by decide +kernel), rfl, rfl,
      by decide⟩

end Detouring

end Analysis

end Typestate

import Typestate.Proofs.Exploded.Simulation
import Typestate.Proofs.Fixpoint.Events
import Typestate.Proofs.States.Incidents

/-!
# What is recorded

The log keeps one finding for each key, whatever is raised and how often. It has all that the final
values raise, since each node is visited with its final value. It has no more than that, and
exploding the graph adds nothing, as long as each edge looks at classes of its source only: values
on the way, and those of exploded nodes, then raise nothing that the final ones do not.
-/
namespace Typestate

namespace Finding

variable {f g : Finding}

theorem key_eq_of_order (h : order f g = .eq) : f.key = g.key := by
  simp only [order, compareLex, compareOn, Ordering.then_eq_eq, Std.compare_eq_iff_eq] at h
  obtain ⟨-, hmessage, hnode, hexpr, hstate⟩ := h
  rw [key, key, hnode, hexpr, hstate, hmessage]

theorem pairwise_sort {l : List Finding} (h : (l.map key).Nodup) :
    (sort l).Pairwise fun f g => order f g = .lt := by
  have hle : (sort l).Pairwise fun f g => (order f g).isLE = true := by
    refine List.pairwise_mergeSort (fun f g k => Std.TransCmp.isLE_trans) (fun f g => ?_) l
    have hswap : order g f = (order f g).swap := Std.OrientedCmp.eq_swap
    rw [hswap]
    cases order f g <;> rfl
  have hkeys : (sort l).Pairwise fun f g => f.key ≠ g.key :=
    List.pairwise_map.1 (((List.mergeSort_perm l _).map key).nodup_iff.2 h)
  refine (hle.and hkeys).imp fun {f g} ⟨hle, hkey⟩ => ?_
  cases hfg : order f g with
  | lt => rfl
  | eq => exact absurd (key_eq_of_order hfg) hkey
  | gt => simp [hfg] at hle

end Finding

namespace Log

variable {log : Log} {i j : Incident} {l : List Incident} {f : Finding}
  {k : NodeId × Expr × State × String}

def keys (log : Log) : List (NodeId × Expr × State × String) := log.findings.map Finding.key

/-- Whether the like of an incident has been kept. -/
def Has (log : Log) : Incident → Prop
  | .finding f => f.key ∈ log.keys
  | .failure f => f ∈ log.failures

theorem add_of_has (h : log.Has i) : log.add i = log := by
  cases i with
  | finding f => exact if_pos h
  | failure f => exact if_pos h

theorem addAll_of_has (h : ∀ i ∈ l, log.Has i) : log.addAll l = log := by
  unfold addAll
  induction l with
  | nil => rfl
  | cons i l ih =>
    rw [List.foldl_cons, add_of_has (h i (by simp))]
    exact ih fun j hj => h j (by simp [hj])

/-- To keep an incident adds the incident at most, and leaves the log with its like. -/
theorem findings_add (log : Log) (i : Incident) : (log.add i).findings = log.findings ∨
    ∃ f, i = .finding f ∧ f.key ∉ log.keys ∧ (log.add i).findings = log.findings ++ [f] := by
  cases i with
  | finding f =>
    unfold add
    dsimp only
    split
    · exact .inl rfl
    · rename_i hnew
      exact .inr ⟨f, rfl, hnew, rfl⟩
  | failure f =>
    left
    unfold add
    dsimp only
    split <;> rfl

theorem has_add (log : Log) (i : Incident) : (log.add i).Has i := by
  cases i with
  | finding f =>
    unfold add
    dsimp only
    split
    · rename_i h
      exact h
    · simp [Has, keys]
  | failure f =>
    unfold add
    dsimp only
    split
    · rename_i h
      exact h
    · simp [Has]

theorem Has.add (h : log.Has i) (j : Incident) : (log.add j).Has i := by
  unfold Log.add
  cases i <;> cases j <;> dsimp only <;> split <;> simp_all [Has, keys]

theorem Has.addAll (h : log.Has i) (l : List Incident) : (log.addAll l).Has i := by
  unfold Log.addAll
  induction l generalizing log with
  | nil => exact h
  | cons j l ih => exact ih (h.add j)

theorem has_addAll (log : Log) (hi : i ∈ l) : (log.addAll l).Has i := by
  unfold addAll
  induction l generalizing log with
  | nil => cases hi
  | cons j l ih =>
    rcases List.mem_cons.1 hi with rfl | hi
    · exact (log.has_add i).addAll l
    · exact ih (log.add j) hi

theorem mem_findings_addAll (h : f ∈ (log.addAll l).findings) :
    f ∈ log.findings ∨ .finding f ∈ l := by
  unfold addAll at h
  induction l generalizing log with
  | nil => exact .inl h
  | cons j l ih =>
    rcases ih h with h | h
    · rcases log.findings_add j with heq | ⟨f', rfl, -, heq⟩
      · exact .inl (heq ▸ h)
      · rw [heq] at h
        rcases List.mem_append.1 h with h | h
        · exact .inl h
        · exact .inr (by simp [List.mem_singleton.1 h])
    · exact .inr (List.mem_cons_of_mem _ h)

theorem subset_findings_addAll (log : Log) (l : List Incident) :
    log.findings ⊆ (log.addAll l).findings := by
  unfold addAll
  induction l generalizing log with
  | nil => exact fun f hf => hf
  | cons j l ih =>
    refine List.Subset.trans ?_ (ih (log.add j))
    rcases log.findings_add j with heq | ⟨f, -, -, heq⟩ <;> rw [heq]
    · exact fun f hf => hf
    · exact List.subset_append_left _ _

theorem nodup_keys_addAll (h : log.keys.Nodup) (l : List Incident) :
    (log.addAll l).keys.Nodup := by
  unfold addAll
  induction l generalizing log with
  | nil => exact h
  | cons j l ih =>
    refine ih ?_
    rcases log.findings_add j with heq | ⟨f', rfl, hnew, heq⟩
    · rw [keys, heq]
      exact h
    · have hkeys : (log.add (.finding f')).keys = log.keys ++ [f'.key] := by
        rw [keys, heq, List.map_append, keys, List.map_singleton]
      rw [hkeys]
      refine List.nodup_append.2 ⟨h, by simp, fun k hk k' hk' => ?_⟩
      rintro rfl
      exact hnew (List.mem_singleton.1 hk' ▸ hk)

end Log

namespace StatesContext

open NodeStates

variable {ctx : StatesContext} {n : NodeId} {v : NodeStates} {x : ExplodedNode}
  {states : NodeId → Option NodeStates} {limit : Nat} {g : ExplodedGraph}
  {incidents : List Incident}

theorem Covers.of_mem_explode (hv : ctx.Covers n v) (hx : x ∈ v.explode n) :
    ctx.Covers n x.states := by
  obtain rfl | ⟨c, s, t, hs, -, -, rfl⟩ := eq_of_mem_explode hx
  · exact hv
  · refine ⟨fun {d} hd => ?_, fun {d u} hu => ?_⟩
    · rw [get?_restrict]
      split
      · exact ⟨_, rfl⟩
      · exact hv.classes hd
    · rw [get?_restrict] at hu
      split at hu
      · exact ⟨t, Option.some.inj hu ▸ SortedSet.mem_singleton.2 rfl⟩
      · exact hv.nonempty hu

theorem incidents_explode (h : ctx.explode states limit = .ok (.built g, incidents)) :
    incidents = (ctx.allExplodedEdges g.nodes).flatMap (·.2) := by
  unfold explode at h
  dsimp only at h
  split at h
  · cases h
  · split at h
    · cases h
    · cases h
      rfl

theorem incidents_explodedEdges (nodes : SortedMap NodeId ExplodedNode) (source : NodeId)
    (x : ExplodedNode) (edge : EdgeId × NodeId) :
    (ctx.explodedEdges nodes source x edge).2 = (ctx.transfer x.states edge.1).incidents := by
  unfold explodedEdges
  dsimp only
  split <;> rfl

theorem exists_emits_of_explode (h : ctx.explode states limit = .ok (.built g, incidents))
    {i : Incident} (hi : i ∈ incidents) :
    ∃ n v x, states n = some v ∧ x ∈ v.explode n ∧ ctx.problem.Emits n x.states i := by
  rw [incidents_explode h] at hi
  obtain ⟨y, hy, hi⟩ := List.mem_flatMap.1 hi
  obtain ⟨⟨j, x⟩, hx, hy⟩ := List.mem_flatMap.1 hy
  obtain ⟨e, he, rfl⟩ := List.mem_map.1 hy
  obtain ⟨n, v, -, hv, hmem⟩ := (get?_nodes_explode h).1 ⟨j, SortedMap.mem_entries_iff.1 hx⟩
  obtain rfl := node_of_mem_explode hmem
  rw [incidents_explodedEdges] at hi
  exact ⟨x.node, v, x, hv, hmem, e, he, hi⟩

end StatesContext

namespace Analysis

variable {p : Program} {m : Automaton} {limit : Nat} {a : Analysis}

/-- Whether an incident comes about when each edge is evaluated once on the final value of its
source. -/
def RaisesFinally (a : Analysis) (i : Incident) : Prop :=
  ∃ e edge v, a.context.program.edges[e]? = some edge ∧ a.statesAt edge.source = some v ∧
    i ∈ (a.context.transfer v e).incidents

/-- Whether each edge looks at classes of its source only in the final value there. -/
def LooksAtOwn (a : Analysis) : Prop :=
  ∀ e edge v, a.context.program.edges[e]? = some edge → a.statesAt edge.source = some v →
    a.context.LooksAtOwn e edge v

/-- An analysis after its graph was exploded under each of a list of settings. -/
def refinedBy (a : Analysis) (l : List Settings) : Analysis := l.foldl (fun b s => (b.refine s).2) a

theorem raisesFinally_iff {i : Incident} : a.RaisesFinally i ↔
    ∃ n v, a.statesAt n = some v ∧ a.context.problem.Emits n v i := by
  constructor
  · rintro ⟨e, edge, v, he, hv, hi⟩
    exact ⟨_, v, hv, (e, edge.target), Program.mem_successors.2 ⟨edge, he, rfl, rfl⟩, hi⟩
  · rintro ⟨n, v, hv, x, hx, hi⟩
    obtain ⟨edge, he, rfl, -⟩ := Program.mem_successors.1 hx
    exact ⟨x.1, edge, v, he, hv, hi⟩

/-- To explode the graph keeps at most what exploded nodes raise. -/
theorem exists_refine (a : Analysis) (s : Settings) : ∃ l : List Incident,
    (a.refine s).2 = { a with log := a.log.addAll l } ∧ ∀ i ∈ l, ∃ n v x,
      a.statesAt n = some v ∧ x ∈ v.explode n ∧ a.context.problem.Emits n x.states i := by
  unfold refine
  cases hexplode : a.context.explode a.states.value s.maxExploded with
  | error fault => exact ⟨[], rfl, fun i hi => absurd hi List.not_mem_nil⟩
  | ok result =>
    obtain ⟨explosion, incidents⟩ := result
    cases explosion with
    | tooComplex nodes limit => exact ⟨[], rfl, fun i hi => absurd hi List.not_mem_nil⟩
    | built g =>
      exact ⟨incidents, rfl, fun i hi => StatesContext.exists_emits_of_explode hexplode hi⟩

theorem refinedBy_induction {M : Analysis → Prop} (hrefine : ∀ b s, M b → M (b.refine s).2)
    (h : M a) (l : List Settings) : M (a.refinedBy l) := by
  unfold refinedBy
  induction l generalizing a with
  | nil => exact h
  | cons s l ih => exact ih (hrefine a s h)

/-- However often the graph is exploded, only what exploded nodes raise is added to the log. -/
theorem exists_refinedBy (a : Analysis) (l : List Settings) : ∃ incidents : List Incident,
    a.refinedBy l = { a with log := a.log.addAll incidents } ∧ ∀ i ∈ incidents, ∃ n v x,
      a.statesAt n = some v ∧ x ∈ v.explode n ∧ a.context.problem.Emits n x.states i := by
  induction l generalizing a with
  | nil => exact ⟨[], rfl, fun i hi => absurd hi List.not_mem_nil⟩
  | cons s l ih =>
    obtain ⟨before, hbefore, hall⟩ := a.exists_refine s
    obtain ⟨after, hafter, hall'⟩ := ih (a.refine s).2
    rw [hbefore] at hafter hall'
    refine ⟨before ++ after, ?_, fun i hi => (List.mem_append.1 hi).elim (hall i) (hall' i)⟩
    have hlog : a.log.addAll (before ++ after) = (a.log.addAll before).addAll after :=
      List.foldl_append
    rw [hlog, ← hafter, ← hbefore]
    rfl

theorem has_of_raisesFinally (ha : solve p m limit = .ok a) {i : Incident}
    (hi : a.RaisesFinally i) (l : List Settings) : (a.refinedBy l).log.Has i := by
  obtain ⟨facts, -, -, hs⟩ := solve_eq_ok ha
  obtain ⟨n, v, hv, hemits⟩ := raisesFinally_iff.1 hi
  obtain ⟨incidents, heq, -⟩ := a.exists_refinedBy l
  rw [heq, log_of_solve ha]
  exact (Log.has_addAll _ (Dataflow.mem_events_of_emits hs hv hemits)).addAll incidents

theorem nodup_keys_refinedBy (ha : solve p m limit = .ok a) (l : List Settings) :
    (a.refinedBy l).log.keys.Nodup := by
  obtain ⟨incidents, heq, -⟩ := a.exists_refinedBy l
  rw [heq, log_of_solve ha]
  have hempty : Log.empty.keys.Nodup := List.nodup_nil
  exact Log.nodup_keys_addAll (Log.nodup_keys_addAll hempty a.states.events) incidents

theorem LooksAtOwn.raisesFinally (hown : a.LooksAtOwn) {n : NodeId} {v w : NodeStates}
    (hw : a.statesAt n = some w) (hv : a.context.Covers n v) (hvw : v.Below w) {i : Incident}
    (hi : a.context.problem.Emits n v i) : a.RaisesFinally i := by
  obtain ⟨x, hx, hi⟩ := hi
  obtain ⟨edge, he, rfl, -⟩ := Program.mem_successors.1 hx
  exact ⟨x.1, edge, w, he, hw,
    StatesContext.incidents_transfer_of_below he hv hvw (hown _ _ _ he hw) hi⟩

section WellFormed

variable (hwf : p.WellFormed) (ha : solve p m limit = .ok a)
include hwf ha

theorem preserves_covers : a.context.problem.Preserves a.context.Covers := by
  obtain ⟨facts, -, hctx, -⟩ := solve_eq_ok ha
  refine StatesContext.preserves_covers ?_
  rw [hctx]
  exact hwf

theorem raisesFinally_of_mem_events (hown : a.LooksAtOwn) {i : Incident}
    (hi : i ∈ a.states.events) : a.RaisesFinally i := by
  obtain ⟨facts, -, -, hs⟩ := solve_eq_ok ha
  obtain ⟨n, v, w, hw, hvw, hv, hemits⟩ :=
    (preserves_covers hwf ha).exists_emits_of_mem_events (StatesContext.rises_problem _) hs hi
  exact hown.raisesFinally hw hv hvw hemits

theorem refine_eq_self (hown : a.LooksAtOwn) (s : Settings) : (a.refine s).2 = a := by
  obtain ⟨facts, -, -, hs⟩ := solve_eq_ok ha
  obtain ⟨l, heq, hl⟩ := a.exists_refine s
  rw [heq, Log.addAll_of_has]
  intro i hi
  obtain ⟨n, v, x, hv, hx, hemits⟩ := hl i hi
  have hcovers := ((preserves_covers hwf ha).solve hs hv).of_mem_explode hx
  have hbelow := (NodeStates.below_of_mem_explode hx).1
  exact has_of_raisesFinally ha (hown.raisesFinally hv hcovers hbelow hemits) []

end WellFormed

/-- In a program free of calls no class travels, so each edge looks at classes of its source. -/
theorem looksAtOwn_of_callFree (hwf : p.WellFormed) (hfree : p.CallFree)
    (ha : solve p m limit = .ok a) : a.LooksAtOwn := by
  obtain ⟨facts, hfacts, hctx, hs⟩ := solve_eq_ok ha
  have hreg : a.context.Regular := by
    rw [hctx]
    exact StatesContext.regular_of hwf hfree hfacts
  exact fun e edge v _ hv => (StatesContext.fits_value hreg hs hv).looksAtOwn

/-- However often the graph is exploded, the log has the key of each finding that the final values
raise, and its findings are sorted into strictly ascending order. If each edge looks at classes of
its source only, as each does in a program free of calls, the keys are just those that the final
values raise, and exploding the graph records nothing. -/
theorem solve_records_final (hwf : p.WellFormed) (ha : solve p m limit = .ok a) :
    (∀ l : List Settings,
      (∀ f, a.RaisesFinally (.finding f) → f.key ∈ (a.refinedBy l).log.keys) ∧
      (Finding.sort (a.refinedBy l).log.findings).Perm (a.refinedBy l).log.findings ∧
      ((Finding.sort (a.refinedBy l).log.findings).map Finding.key).Nodup ∧
      (Finding.sort (a.refinedBy l).log.findings).Pairwise fun f g => Finding.order f g = .lt) ∧
    (a.LooksAtOwn →
      (∀ k, k ∈ a.log.keys ↔ ∃ f, a.RaisesFinally (.finding f) ∧ f.key = k) ∧
      ∀ l, a.refinedBy l = a) ∧
    (p.CallFree → a.LooksAtOwn) := by
  refine ⟨fun l => ⟨fun f hf => has_of_raisesFinally ha hf l, ?_⟩, fun hown => ⟨fun k => ?_, ?_⟩,
    fun hfree => looksAtOwn_of_callFree hwf hfree ha⟩
  · have hnodup := nodup_keys_refinedBy ha l
    have hperm := List.mergeSort_perm (a.refinedBy l).log.findings
      fun f g => (Finding.order f g).isLE
    exact ⟨hperm, (hperm.map Finding.key).nodup_iff.2 hnodup, Finding.pairwise_sort hnodup⟩
  · constructor
    · intro hk
      obtain ⟨f, hf, rfl⟩ := List.mem_map.1 hk
      rw [log_of_solve ha] at hf
      have hevent := (Log.mem_findings_addAll hf).resolve_left List.not_mem_nil
      exact ⟨f, raisesFinally_of_mem_events hwf ha hown hevent, rfl⟩
    · rintro ⟨f, hf, rfl⟩
      exact has_of_raisesFinally ha hf []
  · exact refinedBy_induction (M := fun b => b = a)
      (fun b s hb => hb ▸ refine_eq_self hwf ha hown s) rfl

/-- The program `main(x) { use(x); g = x; f(); }` with a function `f(r)` that copies `g` or `r` to a
local `q` and returns. -/
def handing (shared : Bool) : Program :=
  let g : Variable := ⟨"g", none, .global, .integer⟩
  let x : Variable := ⟨"x", some 0, .param, .pointer⟩
  let r : Variable := ⟨"r", some 1, .param, .pointer⟩
  let q : Variable := ⟨"q", some 1, .localVar, .pointer⟩
  let node (f : FunctionId) (kind : NodeKind) : Node := ⟨some f, kind, none, none⟩
  let stmt (f : FunctionId) (kind : NodeKind) (stmt : Statement) (line : Nat) : Node :=
    ⟨some f, kind, some stmt, some ⟨"test.c", line, 3⟩⟩
  { nodes := #[⟨none, .root, none, none⟩, node 0 .entry, node 0 .exit, node 1 .entry, node 1 .exit,
      stmt 0 .statement (.call none "use" [.var x]) 2,
      stmt 0 .statement (.assign (.var g) (.use (.var x))) 3,
      stmt 0 .call (.call none "f" []) 4, node 0 .returnSite,
      stmt 1 .statement (.assign (.var q) (.use (.var (if shared then g else r)))) 11]
    edges := #[⟨7, 3, .enter⟩, ⟨7, 8, .callToReturn⟩, ⟨4, 8, .leave 7⟩, ⟨1, 5, .flow .always⟩,
      ⟨5, 6, .flow .always⟩, ⟨6, 7, .flow .always⟩, ⟨8, 2, .flow .always⟩, ⟨3, 9, .flow .always⟩,
      ⟨9, 4, .flow .always⟩, ⟨0, 1, .root⟩, ⟨0, 3, .root⟩]
    functions := #[⟨0, "main", [x], [], 1, 2, none, some ⟨"test.c", 1, 1⟩, none⟩,
      ⟨1, "f", [r], [q], 3, 4, none, some ⟨"test.c", 10, 1⟩, none⟩]
    globals := [g] }

/-- The machine that finds pointers which are never used. -/
def unused : Automaton :=
  let ptr : Decl := ⟨"ptr", .anyPointer, true, none⟩
  let machine : Machine :=
    { name := "unused"
      clauses := [.decl ptr,
        .states ⟨["ptr.start"], [⟨.shape (.callArgs "use" [.decl "ptr"]),
          [.goto (.named "ptr.used")], none⟩,
          ⟨.shape (.leaked (.decl "ptr")), [.error "\x7bptr\x7d is never used" none], none⟩],
          none⟩] }
  machine.automaton ptr

def allFinal (a : Analysis) (test : EdgeId → Edge → NodeStates → Bool) : Bool :=
  (List.range a.context.program.edges.size).all fun e =>
    (a.context.program.edges[e]?).all fun edge => (a.statesAt edge.source).all (test e edge)

theorem of_allFinal {test : EdgeId → Edge → NodeStates → Bool} (h : a.allFinal test = true)
    {e : EdgeId} {edge : Edge} {v : NodeStates} (he : a.context.program.edges[e]? = some edge)
    (hv : a.statesAt edge.source = some v) : test e edge v = true := by
  obtain ⟨hlt, -⟩ := Array.getElem?_eq_some_iff.1 he
  have hall := List.all_eq_true.1 h e (List.mem_range.2 hlt)
  rw [he, Option.all_some, hv, Option.all_some] at hall
  exact hall

/-- Whether the classes of a value that an edge looks at are those of its source. -/
def looksInside (a : Analysis) (e : EdgeId) (edge : Edge) (v : NodeStates) : Bool :=
  v.map.keys.all fun c =>
    !a.context.looksAt e edge c || decide (c ∈ a.context.classesAt edge.source)

theorem looksAtOwn_of_allFinal (h : a.allFinal a.looksInside = true) : a.LooksAtOwn := by
  intro e edge v he hv _ _ _ c s hs hlooks
  have hc := List.all_eq_true.1 (of_allFinal h he hv) c (SortedMap.mem_keys_iff.2 ⟨s, hs⟩)
  simpa [hlooks] using hc

/-- While `f` runs a class of `main` travels along. If `f` copies its parameter, the final values
raise that `q` is never used, and nothing else is recorded. -/
theorem solve_records_final_handing : ∃ a, (handing false).WellFormed ∧
    solve (handing false) unused (Settings.ofPreset .fast).maxVisits = .ok a ∧ a.LooksAtOwn ∧
    (∃ v c s, a.statesAt 9 = some v ∧ v.map.get? c = some s ∧ c ∉ a.context.classesAt 9) ∧
    (∃ f, f ∈ a.log.findings) ∧
    (∀ k, k ∈ a.log.keys ↔ ∃ f, a.RaisesFinally (.finding f) ∧ f.key = k) ∧
    ∀ l, a.refinedBy l = a := by
  have hwf : (handing false).WellFormed := by decide
  obtain ⟨a, ha, htest⟩ := exists_eq_ok_of_any
    (solve (handing false) unused (Settings.ofPreset .fast).maxVisits)
    (fun a => a.allFinal a.looksInside && !a.log.findings.isEmpty &&
      (a.statesAt 9).any fun v => v.map.keys.any fun c => decide (c ∉ a.context.classesAt 9))
    (by decide +kernel)
  simp only [Bool.and_eq_true, Option.any_eq_true, List.any_eq_true, decide_eq_true_eq] at htest
  obtain ⟨⟨hown, hfindings⟩, v, hv, c, hc, htravels⟩ := htest
  have hown := looksAtOwn_of_allFinal hown
  obtain ⟨s, hs⟩ := SortedMap.mem_keys_iff.1 hc
  obtain ⟨hkeys, hrefined⟩ := (solve_records_final hwf ha).2.1 hown
  refine ⟨a, hwf, ha, hown, ⟨v, c, s, hv, hs, htravels⟩, ?_, hkeys, hrefined⟩
  exact List.exists_mem_of_ne_nil _ (by simpa using hfindings)

/-- Whether statements mention only variables of their own function and globals, and a declaration
accepts no global that is declared or mentioned. -/
def TracksNoGlobal (p : Program) (d : Decl) : Prop :=
  (∀ n stmt, p.stmtAt n = some stmt → ∀ e ∈ stmt.exprs, e.IsWithin (p.functionIdOf n) ∧
    ∀ x ∈ e.vars, x.owner = none → d.accepts (.var x) = false) ∧
  ∀ x ∈ p.globals, d.accepts (.var x) = false

theorem tracksNoGlobal_handing : TracksNoGlobal (handing true) unused.stateful := by
  have hall : ∀ node ∈ (handing true).nodes, ∀ stmt ∈ node.stmt, ∀ e ∈ stmt.exprs, ∀ x ∈ e.vars,
      (x.owner = none ∨ x.owner = node.function) ∧
        (x.owner = none → unused.stateful.accepts (.var x) = false) := by
    decide
  refine ⟨fun n stmt hstmt e he => ?_, by decide⟩
  obtain ⟨node, hnode, hstmt⟩ := Option.bind_eq_some_iff.1 hstmt
  have he := hall node (Array.mem_of_getElem? hnode) stmt hstmt e he
  refine ⟨fun x hx => ?_, fun x hx => (he x hx).2⟩
  simpa [Program.functionIdOf, hnode] using (he x hx).1

/-- If `f` copies the global, the copy is first evaluated without the class of `main` that holds the
global, and the finding that `q` is never used is recorded. When the class has travelled to `f`, the
copy takes the states that `x` has in `main`, and the final values raise nothing. -/
theorem handing_records_unraised : ∃ a f, (handing true).WellFormed ∧
    TracksNoGlobal (handing true) unused.stateful ∧
    solve (handing true) unused (Settings.ofPreset .fast).maxVisits = .ok a ∧
    f ∈ a.log.findings ∧ ∀ i, ¬ a.RaisesFinally i := by
  obtain ⟨a, ha, htest⟩ := exists_eq_ok_of_any
    (solve (handing true) unused (Settings.ofPreset .fast).maxVisits)
    (fun a => !a.log.findings.isEmpty &&
      a.allFinal fun e _ v => (a.context.transfer v e).incidents.isEmpty)
    (by decide +kernel)
  obtain ⟨hfindings, hquiet⟩ := Bool.and_eq_true_iff.1 htest
  obtain ⟨f, hf⟩ := List.exists_mem_of_ne_nil a.log.findings (by simpa using hfindings)
  refine ⟨a, f, by decide, tracksNoGlobal_handing, ha, hf, ?_⟩
  rintro i ⟨e, edge, v, he, hv, hi⟩
  rw [List.isEmpty_iff.1 (of_allFinal hquiet he hv)] at hi
  cases hi

end Analysis

end Typestate

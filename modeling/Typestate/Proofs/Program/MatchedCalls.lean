import Mathlib.Data.List.Nodup
import Typestate.Proofs.Program

/-!
# Matched calls

A step that adds a call brings a call node and a return site of the caller and three edges: into the
callee, past it, and back from its exit. No other step brings such edges, and later steps leave them
where they are. So a program can be finished exactly if all its call nodes come from such steps, and
then the edges of its calls fall into threes.
-/
namespace Typestate

/-- Whether an edge leads into a callee, past it or back from it. -/
def EdgeKind.IsOfCall : EdgeKind → Prop
  | enter | callToReturn | leave _ => True
  | flow _ | root => False

namespace Program

/-- A call node and a return site of one function, joined with a callee and with each other by edges
that are the only ones of their kinds for the call. -/
structure MatchedCall (p : Program) (call site : NodeId) (callee : Function)
    (into past back : EdgeId) : Prop where
  call_kind : ∃ node, p.nodes[call]? = some node ∧ node.kind = .call
  site_kind : ∃ node, p.nodes[site]? = some node ∧ node.kind = .returnSite
  same_function : ∃ f, p.functionIdOf call = some f ∧ p.functionIdOf site = some f
  callee_mem : callee ∈ p.functions
  callee_unique : ∀ g ∈ p.functions, g.entry = callee.entry → g = callee
  into_edge : p.edges[into]? = some ⟨call, callee.entry, .enter⟩
  past_edge : p.edges[past]? = some ⟨call, site, .callToReturn⟩
  back_edge : p.edges[back]? = some ⟨callee.exit, site, .leave call⟩
  only_into : p.edgesWhere (fun e => e.source == call && e.kind == .enter) = [into]
  only_past : p.edgesWhere (fun e => e.source == call && e.kind == .callToReturn) = [past]
  only_back : p.edgesWhere (·.kind == .leave call) = [back]

/-- Whether a program has all that another has, in the same places. Functions may have grown, but
start and end where they did. -/
structure Extends (p' p : Program) : Prop where
  nodes : ∀ {n : NodeId} {node}, p.nodes[n]? = some node → p'.nodes[n]? = some node
  edges : ∀ {e : EdgeId} {edge}, p.edges[e]? = some edge → p'.edges[e]? = some edge
  functions : ∀ {f : FunctionId} {g}, p.functions[f]? = some g →
    ∃ g', p'.functions[f]? = some g' ∧ g'.entry = g.entry ∧ g'.exit = g.exit

variable {p p' p'' : Program} {n : NodeId} {i : EdgeId} {edge : Edge} {test : Edge → Bool}

theorem Extends.refl (p : Program) : p.Extends p := ⟨id, id, fun h => ⟨_, h, rfl, rfl⟩⟩

theorem Extends.trans (h : p''.Extends p') (h' : p'.Extends p) : p''.Extends p := by
  refine ⟨fun hn => h.nodes (h'.nodes hn), fun he => h.edges (h'.edges he), fun hf => ?_⟩
  obtain ⟨g', hg', hentry', hexit'⟩ := h'.functions hf
  obtain ⟨g'', hg'', hentry, hexit⟩ := h.functions hg'
  exact ⟨g'', hg'', hentry.trans hentry', hexit.trans hexit'⟩

theorem Extends.functionIdOf (h : p'.Extends p) {f : FunctionId}
    (hn : p.functionIdOf n = some f) : p'.functionIdOf n = some f := by
  obtain ⟨node, hnode, hf⟩ := Option.bind_eq_some_iff.1 hn
  exact Option.bind_eq_some_iff.2 ⟨node, h.nodes hnode, hf⟩

theorem Extends.lt_size (h : p'.Extends p) {f : FunctionId} (hf : f < p.functions.size) :
    f < p'.functions.size := by
  obtain ⟨g, hg, -⟩ := h.functions (Array.getElem?_eq_getElem hf)
  exact (Array.getElem?_eq_some_iff.1 hg).1

theorem edgesWhere_eq_singleton (hi : p.edges[i]? = some edge) (ht : test edge = true)
    (honly : ∀ j edge', p.edges[j]? = some edge' → test edge' = true → j = i) :
    p.edgesWhere test = [i] := by
  have hnodup : (p.edgesWhere test).Nodup := List.nodup_range.filter _
  refine List.perm_singleton.1
    ((List.perm_ext_iff_of_nodup hnodup (List.nodup_singleton i)).2 fun j => ?_)
  rw [mem_edgesWhere, List.mem_singleton]
  constructor
  · rintro ⟨edge', hj, ht'⟩
    exact honly j edge' hj ht'
  · rintro rfl
    exact ⟨edge, hi, ht⟩

theorem filter_outEdges (kind : EdgeKind) :
    ((p.outEdges n).filter fun e => p.edges[e]?.any (·.kind == kind)) =
      p.edgesWhere fun e => e.source == n && e.kind == kind := by
  unfold outEdges edgesWhere
  rw [List.filter_filter]
  refine List.filter_congr fun e _ => ?_
  cases p.edges[e]? with
  | none => rfl
  | some edge => exact Bool.and_comm _ _

theorem defect?_eq_none_iff : p.defect? = none ↔
    ∀ (n : NodeId) (node : Node), p.nodes[n]? = some node → node.kind = .call →
      (p.callAt n).isSome ∧
      (p.edgesWhere fun e => e.source == n && e.kind == .enter).length = 1 ∧
      (p.edgesWhere (·.kind == .leave n)).length = 1 := by
  unfold defect?
  rw [List.findSome?_eq_none_iff]
  simp only [Prod.forall, List.mem_zipIdx_iff_getElem?, Array.getElem?_toList]
  constructor
  · intro h n node hnode hkind
    have hn := h node n hnode
    unfold callDefect? at hn
    rw [if_neg (not_not_intro hkind), filter_outEdges] at hn
    cases hcall : (p.callAt n).isNone with
    | true =>
      rw [if_pos hcall] at hn
      cases hn
    | false =>
      rw [if_neg (Bool.eq_false_iff.1 hcall)] at hn
      dsimp only at hn
      split at hn
      · rename_i hcount
        exact ⟨Option.isNone_eq_false_iff.1 hcall, hcount⟩
      · cases hn
  · intro h node n hnode
    unfold callDefect?
    split
    · rfl
    · rename_i hkind
      obtain ⟨hcall, hcount⟩ := h n node hnode (not_not.1 hkind)
      rw [if_neg (Bool.eq_false_iff.1 (Option.isNone_eq_false_iff.2 hcall)), filter_outEdges]
      exact if_pos hcount

end Program

theorem Array.getElem?_push_of_some {α : Type} {a : Array α} {i : Nat} {x y : α}
    (h : a[i]? = some x) : (a.push y)[i]? = some x := by
  obtain ⟨hi, rfl⟩ := Array.getElem?_eq_some_iff.1 h
  exact Array.getElem?_push_lt hi

/-- A call that a step adds: the step, and the node and the first edge that are new with it. -/
structure PlacedCall where
  caller : FunctionId
  stmt : Statement
  callee : FunctionId
  location : Option Location
  node : NodeId
  edge : EdgeId

namespace PlacedCall

def step (c : PlacedCall) : Step := .addCall c.caller c.stmt c.callee c.location

/-- Whether the nodes and edges of a call are in a program. -/
structure IsIn (c : PlacedCall) (p : Program) (g : Function) : Prop where
  callee : p.functions[c.callee]? = some g
  call : p.nodes[c.node]? = some ⟨some c.caller, .call, some c.stmt, c.location⟩
  site : p.nodes[c.node + 1]? = some ⟨some c.caller, .returnSite, none, c.location⟩
  into : p.edges[c.edge]? = some ⟨c.node, g.entry, .enter⟩
  past : p.edges[c.edge + 1]? = some ⟨c.node, c.node + 1, .callToReturn⟩
  back : p.edges[c.edge + 2]? = some ⟨g.exit, c.node + 1, .leave c.node⟩

theorem IsIn.extends {c : PlacedCall} {p p' : Program} {g : Function} (h : c.IsIn p g)
    (hext : p'.Extends p) : ∃ g', c.IsIn p' g' := by
  obtain ⟨g', hg', hentry, hexit⟩ := hext.functions h.callee
  exact ⟨g', hg', hext.nodes h.call, hext.nodes h.site, hentry ▸ hext.edges h.into,
    hext.edges h.past, hexit ▸ hext.edges h.back⟩

end PlacedCall

namespace Draft

variable {d d' : Draft} {steps : List Step} {s : Step}

theorem extends_addNode (f : FunctionId) (kind : NodeKind) (stmt : Option Statement)
    (location : Option Location) : (d.addNode f kind stmt location).Extends d.toProgram :=
  ⟨Array.getElem?_push_of_some, id, fun h => ⟨_, h, rfl, rfl⟩⟩

theorem extends_addEdge (source target : NodeId) (kind : EdgeKind) :
    (d.addEdge source target kind).Extends d.toProgram :=
  ⟨id, Array.getElem?_push_of_some, fun h => ⟨_, h, rfl, rfl⟩⟩

theorem extends_modifyFunction (f : FunctionId) {change : Function → Function}
    (hchange : ∀ g, (change g).entry = g.entry ∧ (change g).exit = g.exit) :
    (d.modifyFunction f change).Extends d.toProgram := by
  refine ⟨id, id, fun {i g} hg => ?_⟩
  simp only [modifyFunction, Array.getElem?_modify, hg]
  split
  · exact ⟨_, rfl, hchange g⟩
  · exact ⟨g, rfl, rfl, rfl⟩

theorem extends_addFunction (name : String) (location : Option Location) :
    (d.addFunction name location).Extends d.toProgram := by
  have hnodes := (extends_addNode (d := d.addNode d.functions.size .entry none none)
    d.functions.size .exit none none).trans (extends_addNode d.functions.size .entry none none)
  exact ⟨hnodes.nodes, id, fun h => ⟨_, Array.getElem?_push_of_some h, rfl, rfl⟩⟩

theorem extends_addStatement (f : FunctionId) (stmt : Statement) (location : Option Location) :
    (d.addStatement f stmt location).Extends d.toProgram := by
  unfold addStatement
  refine (extends_addNode f .statement (some stmt) location).trans ?_
  split
  · exact extends_modifyFunction f fun g => ⟨rfl, rfl⟩
  · exact Program.Extends.refl _

theorem extends_addCall (caller : FunctionId) (stmt : Statement) (g : Function)
    (location : Option Location) : (d.addCall caller stmt g location).Extends d.toProgram := by
  unfold addCall
  exact (extends_addEdge _ _ _).trans ((extends_addEdge _ _ _).trans ((extends_addEdge _ _ _).trans
    ((extends_addNode _ _ _ _).trans (extends_addNode _ _ _ _))))

/-- A step leaves all that is there where it is. -/
theorem extends_run (d : Draft) (s : Step) : (s.run d).Extends d.toProgram := by
  cases s with
  | addGlobal name ty => exact ⟨id, id, fun h => ⟨_, h, rfl, rfl⟩⟩
  | markEntryPoint f =>
    dsimp only [Step.run, markEntryPoint]
    split <;> exact Program.Extends.refl _
  | addFunction name location => exact extends_addFunction name location
  | addParam f | addLocal f | addTemporary f | setEnd f =>
    exact extends_modifyFunction f fun g => ⟨rfl, rfl⟩
  | addStatement f stmt location => exact extends_addStatement f stmt location
  | addNode f kind stmt location => exact extends_addNode f kind stmt location
  | addCall caller stmt callee location =>
    dsimp only [Step.run]
    split
    · exact extends_addCall caller stmt _ location
    · exact Program.Extends.refl _
  | addEdge a b | addSwitch a b => exact extends_addEdge a b _
  | addBranch a b c => exact (extends_addEdge a c _).trans (extends_addEdge a b _)

/-- The edges that a step brings to a draft. -/
def brought (d : Draft) : Step → List Edge
  | .addCall _ _ callee _ =>
    match d.functions[callee]? with
    | some g =>
      [⟨d.nodes.size, g.entry, .enter⟩, ⟨d.nodes.size, d.nodes.size + 1, .callToReturn⟩,
        ⟨g.exit, d.nodes.size + 1, .leave d.nodes.size⟩]
    | none => []
  | .addEdge a b => [⟨a, b, .flow .always⟩]
  | .addBranch a b c => [⟨a, b, .flow (.branch true)⟩, ⟨a, c, .flow (.branch false)⟩]
  | .addSwitch a b cases => [⟨a, b, .flow (.labels cases)⟩]
  | _ => []

theorem edges_run (d : Draft) (s : Step) :
    (s.run d).edges = d.edges ++ (d.brought s).toArray := by
  cases s with
  | addGlobal | addFunction | addParam | addLocal | addTemporary | setEnd | addNode =>
    exact Array.append_empty.symm
  | markEntryPoint f =>
    dsimp only [Step.run, markEntryPoint]
    split <;> exact Array.append_empty.symm
  | addStatement f stmt location =>
    dsimp only [Step.run, addStatement]
    split <;> exact Array.append_empty.symm
  | addEdge | addSwitch | addBranch => rfl
  | addCall caller stmt callee location =>
    dsimp only [Step.run, brought]
    cases d.functions[callee]? with
    | some g => rfl
    | none => exact Array.append_empty.symm

theorem edge_run {i : Nat} {edge : Edge} (h : (s.run d).edges[i]? = some edge)
    (hkind : edge.kind.IsOfCall) : d.edges[i]? = some edge ∨
      ∃ c : PlacedCall, s = c.step ∧ c.node = d.nodes.size ∧ c.edge = d.edges.size ∧
        (i = c.edge ∨ i = c.edge + 1 ∨ i = c.edge + 2) := by
  rw [edges_run, Array.getElem?_append] at h
  split at h
  · exact .inl h
  · rename_i hi
    have hnew : edge ∈ d.brought s := List.mem_of_getElem? (by simpa using h)
    cases s with
    | addCall caller stmt callee location =>
      have hlength : i - d.edges.size < 3 := by
        refine Nat.lt_of_lt_of_le (Array.getElem?_eq_some_iff.1 h).1 ?_
        dsimp only [brought]
        split <;> simp
      exact .inr ⟨⟨caller, stmt, callee, location, d.nodes.size, d.edges.size⟩, rfl, rfl, rfl,
        by dsimp only; omega⟩
    | addEdge | addBranch | addSwitch =>
      simp only [brought, List.mem_cons, List.not_mem_nil, or_false] at hnew
      grind [EdgeKind.IsOfCall]
    | _ => cases hnew

/-- Whether a step adds a call, as the draft is drawn up. -/
def Places (steps : List Step) (c : PlacedCall) : Prop :=
  ∃ before after d, steps = before ++ c.step :: after ∧ ofSteps? before = some d ∧
    c.node = d.nodes.size ∧ c.edge = d.edges.size

theorem places_snoc {c : PlacedCall} (hd : ofSteps? steps = some d) :
    Places (steps ++ [s]) c ↔
      Places steps c ∨ s = c.step ∧ c.node = d.nodes.size ∧ c.edge = d.edges.size := by
  constructor
  · rintro ⟨before, after, d₀, heq, hd₀, hnode, hedge⟩
    rcases List.eq_nil_or_concat after with rfl | ⟨after, last, rfl⟩
    · obtain ⟨rfl, hs⟩ := List.append_inj' heq rfl
      obtain rfl := Option.some.inj (hd₀.symm.trans hd)
      exact .inr ⟨List.singleton_inj.1 hs, hnode, hedge⟩
    · rw [List.concat_eq_append, ← List.cons_append, ← List.append_assoc] at heq
      exact .inl ⟨before, after, d₀, (List.append_inj' heq rfl).1, hd₀, hnode, hedge⟩
  · rintro (⟨before, after, d₀, rfl, hd₀, hnode, hedge⟩ | ⟨rfl, hnode, hedge⟩)
    · exact ⟨before, after ++ [s], d₀, by simp, hd₀, hnode, hedge⟩
    · exact ⟨steps, [], d, rfl, hd, hnode, hedge⟩

/-- How the calls that steps place stand in the draft: each is there, no two have one node, and no
other edges are of calls. -/
structure Wired (steps : List Step) (d : Draft) : Prop where
  isIn : ∀ c, Places steps c → ∃ g, c.IsIn d.toProgram g
  origin : ∀ (i : Nat) (edge : Edge), d.edges[i]? = some edge → edge.kind.IsOfCall →
    ∃ c : PlacedCall, Places steps c ∧ (i = c.edge ∨ i = c.edge + 1 ∨ i = c.edge + 2)
  unique : ∀ c c', Places steps c → Places steps c' → c.node = c'.node → c = c'

theorem isIn_addCall {c : PlacedCall} {g : Function} (hg : d.functions[c.callee]? = some g)
    (hnode : c.node = d.nodes.size) (hedge : c.edge = d.edges.size) :
    c.IsIn (d.addCall c.caller c.stmt g c.location).toProgram g := by
  have hthird : d.edges.size ≠ d.edges.size + 1 + 1 := by omega
  refine ⟨hg, ?_, ?_, ?_, ?_, ?_⟩ <;>
    simp only [hnode, hedge, addCall, addEdge, addNode, Array.getElem?_push, Array.size_push] <;>
    simp [hthird]

theorem not_places_nil {c : PlacedCall} : ¬ Places [] c := by
  rintro ⟨before, after, d, heq, -⟩
  simp at heq

theorem wired_nil : Wired [] empty :=
  ⟨fun _ hc => (not_places_nil hc).elim, by simp [empty], fun _ _ hc => (not_places_nil hc).elim⟩

theorem Wired.snoc (h : Wired steps d) (hd : ofSteps? steps = some d)
    (hfunctions : ∀ f ∈ s.functions, f < d.functions.size) :
    Wired (steps ++ [s]) (s.run d) := by
  have hlt : ∀ c, Places steps c → c.node < d.nodes.size := fun c hc => by
    obtain ⟨g, hg⟩ := h.isIn c hc
    exact (Array.getElem?_eq_some_iff.1 hg.call).1
  refine ⟨fun c hc => ?_, fun i edge hi hkind => ?_, fun c c' hc hc' hnode => ?_⟩
  · rcases (places_snoc hd).1 hc with hc | ⟨rfl, hnode, hedge⟩
    · obtain ⟨g, hg⟩ := h.isIn c hc
      exact hg.extends (extends_run d s)
    · have hcallee : c.callee < d.functions.size :=
        hfunctions _ (by simp [PlacedCall.step, Step.functions])
      have hg := Array.getElem?_eq_getElem hcallee
      refine ⟨d.functions[c.callee], ?_⟩
      simpa [PlacedCall.step, Step.run, hg] using isIn_addCall hg hnode hedge
  · rcases edge_run hi hkind with hi | ⟨c, hs, hnode, hedge, hplace⟩
    · obtain ⟨c, hc, hplace⟩ := h.origin i edge hi hkind
      exact ⟨c, (places_snoc hd).2 (.inl hc), hplace⟩
    · exact ⟨c, (places_snoc hd).2 (.inr ⟨hs, hnode, hedge⟩), hplace⟩
  · rcases (places_snoc hd).1 hc with hc | ⟨hs, hc, hedge⟩ <;>
      rcases (places_snoc hd).1 hc' with hc' | ⟨hs', hc', hedge'⟩
    · exact h.unique c c' hc hc' hnode
    · exact absurd (hlt c hc) (by rw [hnode, hc']; exact Nat.lt_irrefl _)
    · exact absurd (hlt c' hc') (by rw [← hnode, hc]; exact Nat.lt_irrefl _)
    · obtain ⟨hcaller, hstmt, hcallee, hlocation⟩ := Step.addCall.inj (hs.symm.trans hs')
      cases c
      cases c'
      simp_all

theorem wired_of_steps (hd : ofSteps? steps = some d) : Wired steps d :=
  ofSteps_snoc_induction wired_nil (fun _ _ _ hd h hfunctions _ => h.snoc hd hfunctions) hd

theorem size_functions_run (d : Draft) (s : Step) :
    (∃ name location, s = .addFunction name location) ∨
      (s.run d).functions.size = d.functions.size := by
  cases s with
  | addFunction name location => exact .inl ⟨name, location, rfl⟩
  | addParam | addLocal | addTemporary | setEnd => exact .inr (by simp [Step.run, modifyFunction])
  | addStatement f stmt location =>
    refine .inr ?_
    dsimp only [Step.run, addStatement]
    split <;> simp [modifyFunction, addNode]
  | addCall caller stmt callee location =>
    refine .inr ?_
    dsimp only [Step.run]
    split <;> rfl
  | markEntryPoint f =>
    refine .inr ?_
    dsimp only [Step.run, markEntryPoint]
    split <;> rfl
  | addGlobal | addNode | addEdge | addBranch | addSwitch => exact .inr rfl

theorem functionIdOf_entry (hd : ofSteps? steps = some d) {f : FunctionId} {g : Function}
    (hg : d.functions[f]? = some g) : d.functionIdOf g.entry = some f := by
  refine ofSteps_snoc_induction
    (P := fun _ d => ∀ f g, d.functions[f]? = some g → d.functionIdOf g.entry = some f)
    (by simp [empty]) (fun steps s d _ ih _ _ f g hg => ?_) hd f g hg
  have hext := extends_run d s
  by_cases hf : f < d.functions.size
  · have hold := Array.getElem?_eq_getElem hf
    obtain ⟨g', hg', hentry, -⟩ := hext.functions hold
    obtain rfl := Option.some.inj (hg'.symm.trans hg)
    rw [hentry]
    exact hext.functionIdOf (ih f _ hold)
  · have hlt : f < (s.run d).functions.size := (Array.getElem?_eq_some_iff.1 hg).1
    obtain ⟨name, location, rfl⟩ := (size_functions_run d s).resolve_right
      fun hsize => hf (hsize ▸ hlt)
    have hlast : f < d.functions.size + 1 := by
      simpa [Step.run, addFunction, addNode] using hlt
    obtain rfl : f = d.functions.size :=
      Nat.le_antisymm (Nat.lt_succ_iff.1 hlast) (Nat.not_lt.1 hf)
    obtain rfl := Option.some.inj (Array.getElem?_push_size.symm.trans hg)
    exact Option.bind_eq_some_iff.2
      ⟨_, Array.getElem?_push_of_some Array.getElem?_push_size, rfl⟩

theorem entryPoints_run (d : Draft) (s : Step) :
    (∃ f, s = .markEntryPoint f) ∨
      (∀ f, s ≠ .markEntryPoint f) ∧ (s.run d).entryPoints = d.entryPoints := by
  cases s with
  | markEntryPoint f => exact .inl ⟨f, rfl⟩
  | addStatement f stmt location =>
    refine .inr ⟨by simp, ?_⟩
    dsimp only [Step.run, addStatement]
    split <;> rfl
  | addCall caller stmt callee location =>
    refine .inr ⟨by simp, ?_⟩
    dsimp only [Step.run]
    split <;> rfl
  | addGlobal | addFunction | addParam | addLocal | addTemporary | setEnd | addNode | addEdge
  | addBranch | addSwitch => exact .inr ⟨by simp, rfl⟩

theorem mem_entryPoints_run {f : FunctionId} :
    f ∈ (s.run d).entryPoints ↔ f ∈ d.entryPoints ∨ s = .markEntryPoint f := by
  rcases entryPoints_run d s with ⟨g, rfl⟩ | ⟨hs, hsame⟩
  · change f ∈ (d.markEntryPoint g).entryPoints ↔ _
    unfold markEntryPoint
    rw [Step.markEntryPoint.injEq]
    split
    · rename_i hin
      exact ⟨.inl, fun h => h.elim id fun hg => hg ▸ hin⟩
    · rw [List.mem_append, List.mem_singleton, @eq_comm _ f]
  · rw [hsame, or_iff_left (hs f)]

theorem nodup_entryPoints_run (h : d.entryPoints.Nodup) : (s.run d).entryPoints.Nodup := by
  rcases entryPoints_run d s with ⟨g, rfl⟩ | ⟨-, hsame⟩
  · change (d.markEntryPoint g).entryPoints.Nodup
    unfold markEntryPoint
    split
    · exact h
    · rename_i hnew
      exact List.concat_eq_append ▸ h.concat hnew
  · exact hsame ▸ h

/-- The functions marked as entered from outside are those that a step marks, each once. -/
theorem entryPoints_of_steps (hd : ofSteps? steps = some d) :
    d.entryPoints.Nodup ∧ ∀ f, (f ∈ d.entryPoints ↔ Step.markEntryPoint f ∈ steps) ∧
      (f ∈ d.entryPoints → f < d.functions.size) := by
  refine ofSteps_snoc_induction (P := fun steps d => d.entryPoints.Nodup ∧
    ∀ f, (f ∈ d.entryPoints ↔ Step.markEntryPoint f ∈ steps) ∧
      (f ∈ d.entryPoints → f < d.functions.size)) (by simp [empty])
    (fun steps s d _ ih hfunctions _ => ?_) hd
  obtain ⟨hnodup, hmem⟩ := ih
  refine ⟨nodup_entryPoints_run hnodup, fun f => ⟨?_, fun hf => ?_⟩⟩
  · rw [mem_entryPoints_run, (hmem f).1, List.mem_append, List.mem_singleton, @eq_comm _ s]
  · rcases mem_entryPoints_run.1 hf with hf | rfl
    · exact (extends_run d s).lt_size ((hmem f).2 hf)
    · exact (extends_run d _).lt_size (hfunctions f (by simp [Step.functions]))

theorem kind_ne_root (hd : ofSteps? steps = some d) : ∀ edge ∈ d.edges, edge.kind ≠ .root := by
  refine ofSteps_induction (P := fun d => ∀ edge ∈ d.edges, edge.kind ≠ .root) (by simp [empty])
    (fun d s ih _ edge hedge => ?_) hd
  rw [edges_run] at hedge
  rcases Array.mem_append.1 hedge with hold | hnew
  · exact ih edge hold
  · have hnew := List.mem_toArray.1 hnew
    unfold brought at hnew
    grind

/-- A finished draft has the edges of the draft, and behind them those out of the root. -/
theorem getElem?_finish (i : Nat) : d.finish.edges[i]? =
    if i < d.edges.size then d.edges[i]? else d.rootEdges[i - d.edges.size]? := by
  simp only [finish, Array.getElem?_append, List.getElem?_toArray]

theorem extends_finish : d.finish.Extends d.toProgram := by
  refine ⟨id, fun {i edge} hi => ?_, fun h => ⟨_, h, rfl, rfl⟩⟩
  rw [getElem?_finish, if_pos (Array.getElem?_eq_some_iff.1 hi).1]
  exact hi

theorem mem_rootEdges {edge : Edge} : edge ∈ d.rootEdges ↔ ∃ f ∈ d.roots, ∃ g,
    d.functions[f]? = some g ∧ edge = ⟨Program.root, g.entry, .root⟩ := by
  simp only [rootEdges, List.mem_filterMap, Option.map_eq_some_iff, @eq_comm _ edge]

theorem edge_finish {i : Nat} {edge : Edge} (hi : d.finish.edges[i]? = some edge) :
    d.edges[i]? = some edge ∨ edge ∈ d.rootEdges := by
  rw [getElem?_finish] at hi
  split at hi
  · exact .inl hi
  · exact .inr (List.mem_of_getElem? hi)

/-- Each edge of a call in a finished draft belongs to a call that a step placed. -/
theorem exists_place_of_edge (hd : ofSteps? steps = some d) {i : Nat} {edge : Edge}
    (hi : d.finish.edges[i]? = some edge) (hkind : edge.kind.IsOfCall) :
    ∃ c g, Places steps c ∧ c.IsIn d.toProgram g ∧
      (i = c.edge ∧ edge = ⟨c.node, g.entry, .enter⟩ ∨
        i = c.edge + 1 ∧ edge = ⟨c.node, c.node + 1, .callToReturn⟩ ∨
        i = c.edge + 2 ∧ edge = ⟨g.exit, c.node + 1, .leave c.node⟩) := by
  have hwired := wired_of_steps hd
  have hi : d.edges[i]? = some edge := (edge_finish hi).resolve_right fun hroot => by
    obtain ⟨f, -, g, -, rfl⟩ := mem_rootEdges.1 hroot
    exact hkind
  obtain ⟨c, hc, hplace⟩ := hwired.origin i edge hi hkind
  obtain ⟨g, hg⟩ := hwired.isIn c hc
  refine ⟨c, g, hc, hg, ?_⟩
  rcases hplace with rfl | rfl | rfl
  · exact .inl ⟨rfl, Option.some.inj (hi.symm.trans hg.into)⟩
  · exact .inr (.inl ⟨rfl, Option.some.inj (hi.symm.trans hg.past)⟩)
  · exact .inr (.inr ⟨rfl, Option.some.inj (hi.symm.trans hg.back)⟩)

theorem edge_eq_of_kind (hd : ofSteps? steps = some d) {c : PlacedCall} (hc : Places steps c)
    {i : Nat} {edge : Edge} (hi : d.finish.edges[i]? = some edge) :
    (edge.kind = .enter → edge.source = c.node → i = c.edge) ∧
      (edge.kind = .callToReturn → edge.source = c.node → i = c.edge + 1) ∧
      (edge.kind = .leave c.node → i = c.edge + 2) := by
  have hunique := (wired_of_steps hd).unique
  refine ⟨fun hkind hnode => ?_, fun hkind hnode => ?_, fun hkind => ?_⟩ <;>
    obtain ⟨c', g, hc', -, h⟩ := exists_place_of_edge hd hi (by rw [hkind]; trivial)
  · obtain ⟨rfl, rfl⟩ | ⟨-, rfl⟩ | ⟨-, rfl⟩ := h
    · rw [hunique c' c hc' hc hnode]
    · cases hkind
    · cases hkind
  · obtain ⟨-, rfl⟩ | ⟨rfl, rfl⟩ | ⟨-, rfl⟩ := h
    · cases hkind
    · rw [hunique c' c hc' hc hnode]
    · cases hkind
  · obtain ⟨-, rfl⟩ | ⟨-, rfl⟩ | ⟨rfl, rfl⟩ := h
    · cases hkind
    · cases hkind
    · rw [hunique c' c hc' hc (EdgeKind.leave.inj hkind)]

/-- A call that a step placed is matched in the finished draft. -/
theorem matchedCall_of_places (hd : ofSteps? steps = some d) {c : PlacedCall} {g : Function}
    (hc : Places steps c) (hg : c.IsIn d.toProgram g) :
    d.finish.MatchedCall c.node (c.node + 1) g c.edge (c.edge + 1) (c.edge + 2) := by
  have hedges : ∀ {i : EdgeId} {edge}, d.edges[i]? = some edge → d.finish.edges[i]? = some edge :=
    extends_finish.edges
  refine
    { call_kind := ⟨_, hg.call, rfl⟩
      site_kind := ⟨_, hg.site, rfl⟩
      same_function := ⟨c.caller, ?_, ?_⟩
      callee_mem := Array.mem_of_getElem? hg.callee
      callee_unique := fun h hh hentry => ?_
      into_edge := hedges hg.into
      past_edge := hedges hg.past
      back_edge := hedges hg.back
      only_into :=
        Program.edgesWhere_eq_singleton (hedges hg.into) (by simp) fun i edge hi ht => ?_
      only_past :=
        Program.edgesWhere_eq_singleton (hedges hg.past) (by simp) fun i edge hi ht => ?_
      only_back :=
        Program.edgesWhere_eq_singleton (hedges hg.back) (by simp) fun i edge hi ht => ?_ }
  · exact Option.bind_eq_some_iff.2 ⟨_, hg.call, rfl⟩
  · exact Option.bind_eq_some_iff.2 ⟨_, hg.site, rfl⟩
  · obtain ⟨f, hf⟩ := Array.mem_iff_getElem?.1 hh
    have hsame := functionIdOf_entry hd hf
    rw [hentry, functionIdOf_entry hd hg.callee] at hsame
    obtain rfl : c.callee = f := Option.some.inj hsame
    exact Option.some.inj (hf.symm.trans hg.callee)
  · obtain ⟨hsource, hkind⟩ := Bool.and_eq_true_iff.1 ht
    exact (edge_eq_of_kind hd hc hi).1 (eq_of_beq hkind) (eq_of_beq hsource)
  · obtain ⟨hsource, hkind⟩ := Bool.and_eq_true_iff.1 ht
    exact (edge_eq_of_kind hd hc hi).2.1 (eq_of_beq hkind) (eq_of_beq hsource)
  · exact (edge_eq_of_kind hd hc hi).2.2 (eq_of_beq ht)

/-- Whether a node was made as the call node of a call statement. -/
def IsPlacedCall (steps : List Step) (n : NodeId) : Prop :=
  ∃ c, Places steps c ∧ c.node = n ∧ ∃ result callee args, c.stmt = .call result callee args

/-- Whether a function is entered from outside: it was marked so, or none was. -/
def IsEntryPoint (steps : List Step) (d : Draft) (f : FunctionId) : Prop :=
  Step.markEntryPoint f ∈ steps ∨
    (∀ g, Step.markEntryPoint g ∉ steps) ∧ f < d.functions.size

/-- A draft can be finished if just the steps that add a call statement made its call nodes. -/
theorem defect?_finish_eq_none_iff (hd : ofSteps? steps = some d) : d.finish.defect? = none ↔
    ∀ (n : NodeId) (node : Node), d.nodes[n]? = some node → node.kind = .call →
      IsPlacedCall steps n := by
  rw [Program.defect?_eq_none_iff]
  constructor
  · intro h n node hnode hkind
    obtain ⟨hcall, hinto, -⟩ := h n node hnode hkind
    obtain ⟨i, hi⟩ := List.length_eq_one_iff.1 hinto
    obtain ⟨edge, hedge, ht⟩ := Program.mem_edgesWhere.1 (hi ▸ List.mem_singleton.2 rfl)
    obtain ⟨hsource, hkind⟩ := Bool.and_eq_true_iff.1 ht
    have hkind := eq_of_beq hkind
    obtain ⟨c, g, hc, hg, ⟨-, rfl⟩ | ⟨-, rfl⟩ | ⟨-, rfl⟩⟩ :=
      exists_place_of_edge hd hedge (by rw [hkind]; trivial)
    · obtain rfl : c.node = n := eq_of_beq hsource
      refine ⟨c, hc, rfl, ?_⟩
      have hstmt : d.finish.stmtAt c.node = some c.stmt :=
        Option.bind_eq_some_iff.2 ⟨_, hg.call, rfl⟩
      unfold Program.callAt at hcall
      rw [hstmt] at hcall
      cases hs : c.stmt with
      | call result callee args => exact ⟨result, callee, args, rfl⟩
      | _ => simp [hs] at hcall
    · cases hkind
    · cases hkind
  · intro h n node hnode hkind
    obtain ⟨c, hc, rfl, result, callee, args, hstmt⟩ := h n node hnode hkind
    obtain ⟨g, hg⟩ := (wired_of_steps hd).isIn c hc
    have hmatched := matchedCall_of_places hd hc hg
    have hat : d.finish.stmtAt c.node = some (.call result callee args) :=
      hstmt ▸ Option.bind_eq_some_iff.2 ⟨_, hg.call, rfl⟩
    refine ⟨?_, ?_, ?_⟩
    · rw [Program.callAt, hat]
      rfl
    · rw [hmatched.only_into]
      rfl
    · rw [hmatched.only_back]
      rfl

theorem isEntryPoint_iff (hd : ofSteps? steps = some d) {f : FunctionId} :
    IsEntryPoint steps d f ↔ f ∈ d.roots := by
  obtain ⟨-, hmem⟩ := entryPoints_of_steps hd
  unfold IsEntryPoint roots
  split
  · rename_i hempty
    have hnone : ∀ g, Step.markEntryPoint g ∉ steps := fun g hg => by
      have hin := (hmem g).1.2 hg
      rw [List.isEmpty_iff.1 hempty] at hin
      cases hin
    rw [List.mem_range]
    exact ⟨fun h => (h.resolve_left (hnone f)).2, fun h => .inr ⟨hnone, h⟩⟩
  · rename_i hsome
    rw [(hmem f).1]
    refine ⟨fun h => h.resolve_right fun hnone => hsome ?_, .inl⟩
    exact List.isEmpty_iff.2 (List.eq_nil_iff_forall_not_mem.2 fun g hg =>
      hnone.1 g ((hmem g).1.1 hg))

theorem nodup_roots (hd : ofSteps? steps = some d) : d.roots.Nodup := by
  unfold roots
  split
  · exact List.nodup_range
  · exact (entryPoints_of_steps hd).1

theorem lt_of_mem_roots (hd : ofSteps? steps = some d) {f : FunctionId} (hf : f ∈ d.roots) :
    f < d.functions.size := by
  unfold roots at hf
  split at hf
  · exact List.mem_range.1 hf
  · exact ((entryPoints_of_steps hd).2 f).2 hf

theorem nodup_rootEdges (hd : ofSteps? steps = some d) : d.rootEdges.Nodup := by
  refine (nodup_roots hd).filterMap fun f f' edge hf hf' => ?_
  obtain ⟨g, hg, rfl⟩ := Option.map_eq_some_iff.1 hf
  obtain ⟨g', hg', hsame⟩ := Option.map_eq_some_iff.1 hf'
  have hentry : g'.entry = g.entry := congrArg Edge.target hsame
  have hfunction := functionIdOf_entry hd hg'
  rw [hentry, functionIdOf_entry hd hg] at hfunction
  exact Option.some.inj hfunction

theorem exists_root_edge (hd : ofSteps? steps = some d) {f : FunctionId} (hf : f ∈ d.roots) :
    ∃ g e, d.functions[f]? = some g ∧
      d.finish.edges[e]? = some ⟨Program.root, g.entry, .root⟩ ∧
      d.finish.edgesWhere (fun edge => edge.kind == .root && edge.target == g.entry) = [e] := by
  obtain ⟨g, hg⟩ : ∃ g, d.functions[f]? = some g :=
    ⟨_, Array.getElem?_eq_getElem (lt_of_mem_roots hd hf)⟩
  obtain ⟨k, hk⟩ := List.mem_iff_getElem?.1 (mem_rootEdges.2 ⟨f, hf, g, hg, rfl⟩)
  have hedge : d.finish.edges[d.edges.size + k]? = some ⟨Program.root, g.entry, .root⟩ := by
    rw [getElem?_finish, if_neg (Nat.not_lt.2 (Nat.le_add_right _ _)), Nat.add_sub_cancel_left]
    exact hk
  refine ⟨g, _, hg, hedge, Program.edgesWhere_eq_singleton hedge (by simp) fun i edge hi ht => ?_⟩
  obtain ⟨hkind, htarget⟩ := Bool.and_eq_true_iff.1 ht
  rw [getElem?_finish] at hi
  split at hi
  · exact absurd (eq_of_beq hkind) (kind_ne_root hd edge (Array.mem_of_getElem? hi))
  · rename_i hlt
    obtain ⟨f', -, g', -, rfl⟩ := mem_rootEdges.1 (List.mem_of_getElem? hi)
    have hsame : g'.entry = g.entry := eq_of_beq htarget
    rw [hsame] at hi
    have hlength : k < d.rootEdges.length := (List.getElem?_eq_some_iff.1 hk).1
    have hplace := (List.getElem?_inj hlength (nodup_rootEdges hd)).1 (hk.trans hi.symm)
    rw [hplace, Nat.add_sub_cancel' (Nat.not_lt.1 hlt)]

/-- A draft can be finished if and only if its call nodes were made by steps that add a call
statement. Then each call node has its one call, all edges of calls are of such calls, and the edges
out of the root are one into each function that is entered from outside. -/
theorem build_matches_calls (hd : ofSteps? steps = some d) :
    ((∃ p, d.build = .ok p) ↔ ∀ (n : NodeId) (node : Node), d.nodes[n]? = some node →
      node.kind = .call → IsPlacedCall steps n) ∧
    ∀ p, d.build = .ok p →
      (∀ (n : NodeId) (node : Node), p.nodes[n]? = some node → node.kind = .call →
        ∃ site callee into past back, p.MatchedCall n site callee into past back) ∧
      (∀ (e : EdgeId) (edge : Edge), p.edges[e]? = some edge → edge.kind.IsOfCall →
        ∃ n site callee into past back, p.MatchedCall n site callee into past back ∧
          (e = into ∨ e = past ∨ e = back)) ∧
      (∀ f, IsEntryPoint steps d f → ∃ g e, p.functions[f]? = some g ∧
        p.edges[e]? = some ⟨Program.root, g.entry, .root⟩ ∧
        p.edgesWhere (fun edge => edge.kind == .root && edge.target == g.entry) = [e]) ∧
      ∀ edge ∈ p.edges, edge.kind = .root → ∃ f g, IsEntryPoint steps d f ∧
        p.functions[f]? = some g ∧ edge = ⟨Program.root, g.entry, .root⟩ := by
  refine ⟨?_, fun p hp => ?_⟩
  · rw [← defect?_finish_eq_none_iff hd]
    constructor
    · rintro ⟨p, hp⟩
      exact (build_eq_ok_iff.1 hp).1
    · exact fun h => ⟨d.finish, build_eq_ok_iff.2 ⟨h, rfl⟩⟩
  · obtain ⟨hdefect, rfl⟩ := build_eq_ok_iff.1 hp
    refine ⟨fun n node hnode hkind => ?_, fun e edge he hkind => ?_, fun f hf => ?_,
      fun edge hedge hkind => ?_⟩
    · obtain ⟨c, hc, rfl, -⟩ := (defect?_finish_eq_none_iff hd).1 hdefect n node hnode hkind
      obtain ⟨g, hg⟩ := (wired_of_steps hd).isIn c hc
      exact ⟨_, g, _, _, _, matchedCall_of_places hd hc hg⟩
    · obtain ⟨c, g, hc, hg, hplace⟩ := exists_place_of_edge hd he hkind
      refine ⟨_, _, g, _, _, _, matchedCall_of_places hd hc hg, ?_⟩
      exact hplace.imp And.left (Or.imp And.left And.left)
    · exact exists_root_edge hd ((isEntryPoint_iff hd).1 hf)
    · obtain ⟨i, hi⟩ := Array.mem_iff_getElem?.1 hedge
      rcases edge_finish hi with hold | hnew
      · exact absurd hkind (kind_ne_root hd edge (Array.mem_of_getElem? hold))
      · obtain ⟨f, hf, g, hg, rfl⟩ := mem_rootEdges.1 hnew
        exact ⟨f, g, (isEntryPoint_iff hd).2 hf, hg, rfl⟩

/-- A function that calls itself twice, with an entry and an exit added by hand, marked twice. -/
def recurring : List Step :=
  [.addFunction "f" none, .addNode 0 .entry none none, .addNode 0 .exit none none,
    .addCall 0 (.call none "f" []) 0 none, .addCall 0 (.call none "f" []) 0 none,
    .markEntryPoint 0, .markEntryPoint 0]

/-- The same with a call node added by hand. -/
def orphaned : List Step := recurring ++ [.addNode 0 .call (some (.call none "f" [])) none]

def drawn (steps : List Step) : Draft := (ofSteps? steps).getD empty

/-- The two calls are matched apart; a call node added by hand has no edges. -/
theorem build_matches_calls_recurring :
    (ofSteps? recurring = some (drawn recurring) ∧
      ∃ p, (drawn recurring).build = .ok p ∧
        (∃ site callee into past back, p.MatchedCall 5 site callee into past back) ∧
        (∃ site callee into past back, p.MatchedCall 7 site callee into past back) ∧
        ∃ g e, p.functions[0]? = some g ∧ p.edges[e]? = some ⟨Program.root, g.entry, .root⟩ ∧
          p.edgesWhere (fun edge => edge.kind == .root && edge.target == g.entry) = [e]) ∧
    ofSteps? orphaned = some (drawn orphaned) ∧
      (drawn orphaned).build = .error (.invalidGraph (.unmatchedCall 9 0 0)) ∧
      ¬ ∀ (n : NodeId) (node : Node), (drawn orphaned).nodes[n]? = some node →
        node.kind = .call → IsPlacedCall orphaned n := by
  have hd : ofSteps? recurring = some (drawn recurring) := rfl
  have ho : ofSteps? orphaned = some (drawn orphaned) := rfl
  have hbuild : (drawn recurring).build = .ok (drawn recurring).finish := rfl
  have hfail : (drawn orphaned).build = .error (.invalidGraph (.unmatchedCall 9 0 0)) := rfl
  obtain ⟨hcalls, -, hroots, -⟩ := (build_matches_calls hd).2 _ hbuild
  refine ⟨⟨hd, _, hbuild, hcalls 5 _ rfl rfl, hcalls 7 _ rfl rfl, hroots 0 (.inl (by decide))⟩, ho,
    hfail, fun h => ?_⟩
  obtain ⟨p, hp⟩ := (build_matches_calls ho).1.2 h
  rw [hfail] at hp
  cases hp

end Draft

end Typestate

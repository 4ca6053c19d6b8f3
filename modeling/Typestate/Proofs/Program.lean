import Mathlib.Data.List.Induction
import Typestate.Program.Draft
import Typestate.Proofs.Execution

/-!
# Well-formed programs

A program that was drawn up step by step is well formed: each function stands at its own
place and declares variables of its own, globals belong to no function, and neither does the
root. Its exits are reached along edges inside functions only. A program is free of calls if its
edges leave the root or stay inside a function, whose statements see nothing of other functions.
-/
namespace Typestate

/-- Whether all variables of an expression are global or belong to a function. -/
def Expr.IsWithin (f : Option FunctionId) (e : Expr) : Prop :=
  ∀ x ∈ e.vars, x.owner = none ∨ x.owner = f

instance (f : Option FunctionId) (e : Expr) : Decidable (e.IsWithin f) :=
  inferInstanceAs (Decidable (∀ x ∈ e.vars, _))

/-- Whether a function has a place as its identifier and its own variables only. -/
def Function.IsAt (f : Function) (i : FunctionId) : Prop :=
  f.id = i ∧ ∀ x ∈ f.params ++ f.locals, x.owner = some i

instance (f : Function) (i : FunctionId) : Decidable (f.IsAt i) :=
  inferInstanceAs (Decidable (_ ∧ _))

namespace Program

structure WellFormed (p : Program) : Prop where
  root : ∃ node, p.nodes[root]? = some node ∧ node.function = none
  functions : ∀ (i : FunctionId) (f : Function), p.functions[i]? = some f → f.IsAt i
  entries : ∀ (i : FunctionId) (f : Function), p.functions[i]? = some f → f.entry < p.nodes.size
  targets : ∀ edge ∈ p.edges, edge.target < p.nodes.size
  globals : ∀ x ∈ p.globals, x.owner = none

structure CallFree (p : Program) : Prop where
  edges : ∀ edge ∈ p.edges, edge.kind = .root ∧ edge.source = root ∨
    ∃ guard f, edge.kind = .flow guard ∧ p.functionIdOf edge.source = some f ∧
      p.functionIdOf edge.target = some f
  root : ∀ edge ∈ p.edges, edge.target ≠ root
  statements : ∀ n stmt, p.stmtAt n = some stmt →
    ∀ e ∈ stmt.exprs, e.IsWithin (p.functionIdOf n)
  labels : p.LabelsOrdered

theorem WellFormed.functionIdOf_root {p : Program} (h : p.WellFormed) :
    p.functionIdOf Program.root = none := by
  obtain ⟨node, hnode, hf⟩ := h.root
  simp [functionIdOf, hnode, hf]

/-- Whether a program is well formed can be checked node by node and function by function. -/
theorem wellFormed_iff {p : Program} : p.WellFormed ↔
    (∃ node ∈ p.nodes[root]?, node.function = none) ∧
      (∀ (i : Nat) (hi : i < p.functions.size),
        p.functions[i].IsAt i ∧ p.functions[i].entry < p.nodes.size) ∧
      (∀ edge ∈ p.edges, edge.target < p.nodes.size) ∧ ∀ x ∈ p.globals, x.owner = none := by
  constructor
  · rintro ⟨hroot, hfunctions, hentries, htargets, hglobals⟩
    refine ⟨hroot, fun i hi => ?_, htargets, hglobals⟩
    have hf : p.functions[i]? = some p.functions[i] := Array.getElem?_eq_getElem hi
    exact ⟨hfunctions i _ hf, hentries i _ hf⟩
  · rintro ⟨hroot, hplaces, htargets, hglobals⟩
    refine ⟨hroot, fun i f hf => ?_, fun i f hf => ?_, htargets, hglobals⟩ <;>
      obtain ⟨hi, rfl⟩ := Array.getElem?_eq_some_iff.1 hf
    · exact (hplaces i hi).1
    · exact (hplaces i hi).2

instance (p : Program) : Decidable p.WellFormed := decidable_of_iff' _ wellFormed_iff

/-- Whether the exits of functions are reached along edges inside functions only. -/
def ExitsFromWithin (p : Program) : Prop :=
  ∀ edge ∈ p.edges, ∀ node ∈ p.nodes[edge.target]?, node.kind = .exit →
    edge.kind.isInterprocedural = false

instance (p : Program) : Decidable p.ExitsFromWithin :=
  inferInstanceAs (Decidable (∀ edge ∈ p.edges, _))

end Program

namespace Draft

variable {d : Draft}

theorem wellFormed_addNode (h : d.WellFormed) (f : FunctionId) (kind : NodeKind)
    (stmt : Option Statement) (location : Option Location) :
    (d.addNode f kind stmt location).WellFormed := by
  have hsize : (d.addNode f kind stmt location).nodes.size = d.nodes.size + 1 := by
    simp [addNode]
  refine ⟨?_, h.functions, fun i g hg => ?_, fun edge hedge => ?_, h.globals⟩
  · obtain ⟨node, hnode, hf⟩ := h.root
    refine ⟨node, ?_, hf⟩
    obtain ⟨hlt, -⟩ := Array.getElem?_eq_some_iff.1 hnode
    rw [addNode, Array.getElem?_push_lt (by simpa using hlt), ← hnode]
    exact (Array.getElem?_eq_getElem hlt).symm
  · exact hsize ▸ Nat.lt_succ_of_lt (h.entries i g hg)
  · exact hsize ▸ Nat.lt_succ_of_lt (h.targets edge hedge)

theorem wellFormed_addEdge (h : d.WellFormed) (source : NodeId) {target : NodeId}
    (htarget : target < d.nodes.size) (kind : EdgeKind) :
    (d.addEdge source target kind).WellFormed := by
  refine ⟨h.root, h.functions, h.entries, fun edge hedge => ?_, h.globals⟩
  rcases Array.mem_push.1 hedge with hedge | rfl
  · exact h.targets edge hedge
  · exact htarget

theorem wellFormed_modifyFunction (h : d.WellFormed) {f : FunctionId} {change : Function → Function}
    (hchange : ∀ g : Function, g.IsAt f → (change g).IsAt f)
    (hentry : ∀ g : Function, (change g).entry = g.entry) :
    (d.modifyFunction f change).WellFormed := by
  have hget : ∀ i g, (d.modifyFunction f change).functions[i]? = some g →
      d.functions[i]? = some g ∨
        i = f ∧ ∃ g', d.functions[f]? = some g' ∧ g = change g' := by
    intro i g hg
    rw [modifyFunction, Array.getElem?_modify] at hg
    split at hg
    · rename_i hif
      subst hif
      obtain ⟨g', hg', rfl⟩ := Option.map_eq_some_iff.1 hg
      exact .inr ⟨rfl, g', hg', rfl⟩
    · exact .inl hg
  refine ⟨h.root, fun i g hg => ?_, fun i g hg => ?_, h.targets, h.globals⟩
  · rcases hget i g hg with hg | ⟨rfl, g', hg', rfl⟩
    · exact h.functions i g hg
    · exact hchange g' (h.functions i g' hg')
  · rcases hget i g hg with hg | ⟨rfl, g', hg', rfl⟩
    · exact h.entries i g hg
    · exact hentry g' ▸ h.entries i g' hg'

theorem wellFormed_addFunction (h : d.WellFormed) (name : String) (location : Option Location) :
    (d.addFunction name location).WellFormed := by
  have hnodes := wellFormed_addNode
    (wellFormed_addNode h d.functions.size .entry none none) d.functions.size .exit none none
  refine ⟨hnodes.root, fun i g hg => ?_, fun i g hg => ?_, hnodes.targets, h.globals⟩
  · rw [addFunction, Array.getElem?_push] at hg
    split at hg
    · rename_i hi
      obtain rfl := Option.some.inj hg
      subst hi
      exact ⟨rfl, by simp⟩
    · exact h.functions i g hg
  · rw [addFunction, Array.getElem?_push] at hg
    split at hg
    · obtain rfl := Option.some.inj hg
      simp only [addFunction, addNode, Array.size_push]
      exact Nat.lt_add_of_pos_right (Nat.succ_pos 1)
    · exact hnodes.entries i g hg

theorem wellFormed_addStatement (h : d.WellFormed) (f : FunctionId) (stmt : Statement)
    (location : Option Location) : (d.addStatement f stmt location).WellFormed := by
  unfold addStatement
  refine wellFormed_addNode ?_ _ _ _ _
  split
  · exact wellFormed_modifyFunction h (fun g hg => hg) fun g => rfl
  · exact h

theorem wellFormed_addCall (h : d.WellFormed) (caller : FunctionId) (stmt : Statement)
    {callee : FunctionId} {g : Function} (hg : d.functions[callee]? = some g)
    (location : Option Location) : (d.addCall caller stmt g location).WellFormed := by
  have hnodes := wellFormed_addNode (wellFormed_addNode h caller .call (some stmt) location)
    caller .returnSite none location
  have hentry := h.entries callee g hg
  refine wellFormed_addEdge (wellFormed_addEdge (wellFormed_addEdge hnodes _ ?_ _) _ ?_ _) _ ?_ _
  · simp only [addNode, Array.size_push]
    exact Nat.lt_add_right 2 hentry
  · simp [addNode, addEdge]
  · simp [addNode, addEdge]

theorem wellFormed_run (h : d.WellFormed) (s : Step) (hs : ∀ n ∈ s.nodes, n < d.nodes.size) :
    (s.run d).WellFormed := by
  cases s with
  | addGlobal name ty =>
    refine ⟨h.root, h.functions, h.entries, h.targets, fun x hx => ?_⟩
    rcases List.mem_append.1 hx with hx | hx
    · exact h.globals x hx
    · rw [List.mem_singleton.1 hx]
  | addFunction name location => exact wellFormed_addFunction h name location
  | addParam f name ty | addLocal f name ty | addTemporary f name ty =>
    refine wellFormed_modifyFunction h (fun g hg => ⟨hg.1, fun x hx => ?_⟩) fun g => rfl
    have hown := hg.2
    simp only [List.mem_append, List.mem_singleton] at hx hown
    grind
  | setEnd f location => exact wellFormed_modifyFunction h (fun g hg => hg) fun g => rfl
  | addStatement f stmt location => exact wellFormed_addStatement h f stmt location
  | addNode f kind stmt location => exact wellFormed_addNode h f kind stmt location
  | addCall caller stmt callee location =>
    cases hg : d.functions[callee]? with
    | none => simpa [Step.run, hg] using h
    | some g => simpa [Step.run, hg] using wellFormed_addCall h caller stmt hg location
  | addEdge a b => exact wellFormed_addEdge h a (hs b (by simp [Step.nodes])) _
  | addBranch a b c =>
    have hb := wellFormed_addEdge h a (hs b (by simp [Step.nodes])) (.flow (.branch true))
    exact wellFormed_addEdge hb a (hs c (by simp [Step.nodes])) _
  | addSwitch a b cases => exact wellFormed_addEdge h a (hs b (by simp [Step.nodes])) _
  | markEntryPoint f =>
    change (d.markEntryPoint f).WellFormed
    unfold markEntryPoint
    split
    · exact h
    · exact ⟨h.root, h.functions, h.entries, h.targets, h.globals⟩

theorem wellFormed_finish (h : d.WellFormed) : d.finish.WellFormed := by
  refine ⟨h.root, h.functions, h.entries, fun edge hedge => ?_, h.globals⟩
  rcases Array.mem_append.1 hedge with hedge | hedge
  · exact h.targets edge hedge
  · obtain ⟨f, -, hf⟩ := List.mem_filterMap.1 (List.mem_toArray.1 hedge)
    obtain ⟨g, hg, rfl⟩ := Option.map_eq_some_iff.1 hf
    exact h.entries f g hg

theorem ofSteps?_snoc {steps : List Step} {s : Step} :
    ofSteps? (steps ++ [s]) = (ofSteps? steps).bind s.perform? := by
  simp [ofSteps?, List.foldlM_append]

/-- What holds of no steps, and of steps with one more if of them, holds of all steps that can be
performed, together with the draft that they draw up. -/
theorem ofSteps_snoc_induction {P : List Step → Draft → Prop} {steps : List Step}
    (hempty : P [] empty)
    (hsnoc : ∀ steps s d, ofSteps? steps = some d → P steps d →
      (∀ f ∈ s.functions, f < d.functions.size) → (∀ n ∈ s.nodes, n < d.nodes.size) →
      P (steps ++ [s]) (s.run d))
    (hd : ofSteps? steps = some d) : P steps d := by
  induction steps using List.reverseRecOn generalizing d with
  | nil => exact Option.some.inj hd ▸ hempty
  | append_singleton steps s ih =>
    rw [ofSteps?_snoc] at hd
    obtain ⟨d₀, hd₀, hs⟩ := Option.bind_eq_some_iff.1 hd
    unfold Step.perform? at hs
    split at hs
    · rename_i hcheck
      obtain rfl := Option.some.inj hs
      have hcheck := Bool.and_eq_true_iff.1 hcheck
      exact hsnoc steps s d₀ hd₀ (ih hd₀) (by simpa using hcheck.1) (by simpa using hcheck.2)
    · cases hs

/-- What holds of the empty draft and survives each step whose nodes are there holds of a draft
that was drawn up step by step. -/
theorem ofSteps_induction {P : Draft → Prop} (hempty : P empty)
    (hrun : ∀ (d : Draft) (s : Step), P d → (∀ n ∈ s.nodes, n < d.nodes.size) → P (s.run d))
    {steps : List Step} (hd : ofSteps? steps = some d) : P d :=
  ofSteps_snoc_induction (P := fun _ d => P d) hempty
    (fun _ s d _ h _ hnodes => hrun d s h hnodes) hd

theorem build_eq_ok_iff {p : Program} :
    d.build = .ok p ↔ d.finish.defect? = none ∧ p = d.finish := by
  unfold build
  cases d.finish.defect? with
  | none => simp [eq_comm]
  | some defect => simp

theorem eq_finish_of_build {p : Program} (hp : d.build = .ok p) : p = d.finish :=
  (build_eq_ok_iff.1 hp).2

theorem wellFormed_empty : empty.WellFormed :=
  ⟨⟨_, rfl, rfl⟩, by simp [empty], by simp [empty], by simp [empty], by simp [empty]⟩

/-- A program that was drawn up step by step is well formed. -/
theorem wellFormed_build {steps : List Step} {p : Program} (hd : ofSteps? steps = some d)
    (hp : d.build = .ok p) : p.WellFormed := by
  rw [eq_finish_of_build hp]
  exact wellFormed_finish (ofSteps_induction wellFormed_empty (fun _ s h => wellFormed_run h s) hd)

/-- A draft whose functions start at entries and whose exits are reached from within. -/
structure Guarded (d : Draft) : Prop where
  entries : ∀ (i : FunctionId) (f : Function), d.functions[i]? = some f →
    ∀ node ∈ d.nodes[f.entry]?, node.kind = .entry
  exits : d.ExitsFromWithin

theorem guarded_addNode (hwf : d.WellFormed) (h : d.Guarded) (f : FunctionId) (kind : NodeKind)
    (stmt : Option Statement) (location : Option Location) :
    (d.addNode f kind stmt location).Guarded := by
  have hold : ∀ n < d.nodes.size, (d.addNode f kind stmt location).nodes[n]? = d.nodes[n]? := by
    intro n hn
    rw [addNode, Array.getElem?_push_lt hn, Array.getElem?_eq_getElem hn]
  refine ⟨fun i g hg node hnode => ?_, fun edge hedge node hnode => ?_⟩
  · rw [hold _ (hwf.entries i g hg)] at hnode
    exact h.entries i g hg node hnode
  · rw [hold _ (hwf.targets edge hedge)] at hnode
    exact h.exits edge hedge node hnode

theorem guarded_addEdge (h : d.Guarded) (source : NodeId) {target : NodeId} {kind : EdgeKind}
    (hkind : kind.isInterprocedural = true → ∀ node ∈ d.nodes[target]?, node.kind ≠ .exit) :
    (d.addEdge source target kind).Guarded := by
  refine ⟨h.entries, fun edge hedge node hnode hexit => ?_⟩
  rcases Array.mem_push.1 hedge with hedge | rfl
  · exact h.exits edge hedge node hnode hexit
  · exact Bool.eq_false_iff.2 fun hinter => hkind hinter node hnode hexit

theorem guarded_modifyFunction (h : d.Guarded) {f : FunctionId} {change : Function → Function}
    (hentry : ∀ g : Function, (change g).entry = g.entry) :
    (d.modifyFunction f change).Guarded := by
  refine ⟨fun i g hg => ?_, h.exits⟩
  rw [modifyFunction, Array.getElem?_modify] at hg
  split at hg
  · obtain ⟨g', hg', rfl⟩ := Option.map_eq_some_iff.1 hg
    exact hentry g' ▸ h.entries _ g' hg'
  · exact h.entries i g hg

theorem guarded_addNodes (hwf : d.WellFormed) (h : d.Guarded) (f : FunctionId)
    (kind kind' : NodeKind) (stmt : Option Statement) (location location' : Option Location) :
    ((d.addNode f kind stmt location).addNode f kind' none location').Guarded :=
  guarded_addNode (wellFormed_addNode hwf f kind stmt location)
    (guarded_addNode hwf h f kind stmt location) f kind' none location'

theorem guarded_addFunction (hwf : d.WellFormed) (h : d.Guarded) (name : String)
    (location : Option Location) : (d.addFunction name location).Guarded := by
  have hnodes := guarded_addNodes hwf h d.functions.size .entry .exit none none none
  have hentry : (d.addFunction name location).nodes[d.nodes.size]? =
      some ⟨some d.functions.size, .entry, none, none⟩ := by
    change (Array.push (Array.push _ _) _)[d.nodes.size]? = _
    have hne : d.nodes.size ≠ d.nodes.size + 1 := Nat.ne_of_lt (Nat.lt_succ_self _)
    rw [Array.getElem?_push, Array.size_push, if_neg hne, Array.getElem?_push, if_pos rfl]
  refine ⟨fun i g hg => ?_, hnodes.exits⟩
  rw [addFunction, Array.getElem?_push] at hg
  split at hg
  · obtain rfl := Option.some.inj hg
    intro node hnode
    obtain rfl := Option.some.inj (hentry.symm.trans hnode)
    rfl
  · exact hnodes.entries i g hg

theorem guarded_addCall (hwf : d.WellFormed) (h : d.Guarded) (caller : FunctionId)
    (stmt : Statement) {callee : FunctionId} {g : Function} (hg : d.functions[callee]? = some g)
    (location : Option Location) : (d.addCall caller stmt g location).Guarded := by
  have hnodes := guarded_addNodes hwf h caller .call .returnSite (some stmt) location location
  have hsite : (d.addCall caller stmt g location).nodes[d.nodes.size + 1]? =
      some ⟨some caller, .returnSite, none, location⟩ := by
    change (Array.push (Array.push _ _) _)[d.nodes.size + 1]? = _
    rw [Array.getElem?_push, if_pos (by rw [Array.size_push])]
  refine guarded_addEdge (guarded_addEdge (guarded_addEdge hnodes _ ?_) _ (by nofun)) _ ?_
  · intro _ node hnode
    rw [hnodes.entries callee g hg node hnode]
    nofun
  · intro _ node hnode
    obtain rfl := Option.some.inj (hsite.symm.trans hnode)
    nofun

/-- Each step leaves a draft guarded. -/
theorem guarded_run (hwf : d.WellFormed) (h : d.Guarded) (s : Step) : (s.run d).Guarded := by
  cases s with
  | addGlobal name ty => exact ⟨h.entries, h.exits⟩
  | addFunction name location => exact guarded_addFunction hwf h name location
  | addParam f name ty | addLocal f name ty | addTemporary f name ty | setEnd f location =>
    exact guarded_modifyFunction h fun g => rfl
  | addStatement f stmt location =>
    change (d.addStatement f stmt location).Guarded
    unfold addStatement
    split
    · refine guarded_addNode ?_ (guarded_modifyFunction h ?_) _ _ _ _
      · exact wellFormed_modifyFunction hwf (fun g hg => hg) fun g => rfl
      · exact fun g => rfl
    · exact guarded_addNode hwf h _ _ _ _
  | addNode f kind stmt location => exact guarded_addNode hwf h f kind stmt location
  | addCall caller stmt callee location =>
    cases hg : d.functions[callee]? with
    | none => simpa [Step.run, hg] using h
    | some g => simpa [Step.run, hg] using guarded_addCall hwf h caller stmt hg location
  | addEdge a b => exact guarded_addEdge h a nofun
  | addBranch a b c => exact guarded_addEdge (guarded_addEdge h a (by nofun)) a (by nofun)
  | addSwitch a b cases => exact guarded_addEdge h a nofun
  | markEntryPoint f =>
    change (d.markEntryPoint f).Guarded
    unfold markEntryPoint
    split
    · exact h
    · exact ⟨h.entries, h.exits⟩

theorem exitsFromWithin_finish (h : d.Guarded) : d.finish.ExitsFromWithin := by
  intro edge hedge node hnode hexit
  rcases Array.mem_append.1 hedge with hedge | hedge
  · exact h.exits edge hedge node hnode hexit
  · obtain ⟨f, -, hf⟩ := List.mem_filterMap.1 (List.mem_toArray.1 hedge)
    obtain ⟨g, hg, rfl⟩ := Option.map_eq_some_iff.1 hf
    have hentry := h.entries f g hg node hnode
    rw [hexit] at hentry
    cases hentry

/-- The exits of a program that was drawn up step by step are reached from within. -/
theorem exitsFromWithin_build {steps : List Step} {p : Program} (hd : ofSteps? steps = some d)
    (hp : d.build = .ok p) : p.ExitsFromWithin := by
  have hempty : empty.WellFormed ∧ empty.Guarded :=
    ⟨wellFormed_empty, by simp [empty], by simp [Program.ExitsFromWithin, empty]⟩
  have hguarded : d.WellFormed ∧ d.Guarded :=
    ofSteps_induction (P := fun d => d.WellFormed ∧ d.Guarded) hempty
      (fun _ s h hs => ⟨wellFormed_run h.1 s hs, guarded_run h.1 h.2 s⟩) hd
  rw [eq_finish_of_build hp]
  exact exitsFromWithin_finish hguarded.2

end Draft

end Typestate

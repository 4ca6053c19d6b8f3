import Mathlib.Data.List.Induction
import Typestate.Proofs.Program

/-!
# Nesting of calls

Along a walk through a program each call is open until a return from it. In a program that was
drawn up step by step the callee of the latest open call is the function that the walk is in, as
long as the returns name the calls that they close.
-/
namespace Typestate

namespace Program

/-- Whether an edge has the ends that its kind asks for: calls lead into functions, returns out of
functions to where the calls were made, and other edges stay inside a function or leave the root. -/
def IsFramed (p : Program) (edge : Edge) : Prop :=
  match edge.kind with
  | .flow _ | .callToReturn => p.functionIdOf edge.target = p.functionIdOf edge.source
  | .enter => (p.functionIdOf edge.target).isSome
  | .leave call =>
    (p.functionIdOf edge.source).isSome ∧ p.functionIdOf edge.target = p.functionIdOf call
  | .root => p.functionIdOf edge.source = none

instance (p : Program) (edge : Edge) : Decidable (p.IsFramed edge) := by
  unfold IsFramed
  split <;> infer_instance

def Framed (p : Program) : Prop := ∀ edge ∈ p.edges, p.IsFramed edge

instance (p : Program) : Decidable p.Framed :=
  inferInstanceAs (Decidable (∀ edge ∈ p.edges, _))

/-- Whether edges lead one after the other from a node to another. -/
inductive Walks (p : Program) : NodeId → List Edge → NodeId → Prop
  | nil (n : NodeId) : Walks p n [] n
  | cons {edge l m} : edge ∈ p.edges → Walks p edge.target l m → Walks p edge.source (edge :: l) m

/-- What an edge makes of the open calls, the latest first. A return closes the latest call; there
is no result if it does not name that call. -/
def nest (stack : List Edge) (edge : Edge) : Option (List Edge) :=
  match edge.kind, stack with
  | .enter, _ => some (edge :: stack)
  | .leave c, call :: outer => if call.source = c then some outer else none
  | .leave _, [] => none
  | _, _ => some stack

/-- The calls that a list of edges leaves open, the latest first, if each return names the latest
call that is open before it. -/
def openCalls (l : List Edge) : Option (List Edge) := l.foldlM nest []

/-- Whether open calls lead from one function into another: each is made in the function that the
one before it leads into, and the latest leads into the function that the walk is in. -/
def Nested (p : Program) (base : Option FunctionId) : List Edge → Option FunctionId → Prop
  | [], f => f = base
  | call :: outer, f => call ∈ p.edges ∧ call.kind = .enter ∧ f = p.functionIdOf call.target ∧
      Nested p base outer (p.functionIdOf call.source)

variable {p : Program} {n m : NodeId} {l l' : List Edge} {edge call : Edge}
  {stack stack' outer : List Edge} {base f : Option FunctionId}

theorem walks_nil : p.Walks n [] m ↔ m = n := by
  constructor
  · intro h
    cases h
    rfl
  · rintro rfl
    exact .nil m

theorem walks_append : p.Walks n (l ++ l') m ↔ ∃ k, p.Walks n l k ∧ p.Walks k l' m := by
  induction l generalizing n with
  | nil =>
    refine ⟨fun h => ⟨n, .nil n, h⟩, ?_⟩
    rintro ⟨k, hnil, h⟩
    exact walks_nil.1 hnil ▸ h
  | cons edge l ih =>
    constructor
    · intro h
      cases h with
      | cons hedge h =>
        obtain ⟨k, hl, hl'⟩ := ih.1 h
        exact ⟨k, .cons hedge hl, hl'⟩
    · rintro ⟨k, hl, hl'⟩
      cases hl with
      | cons hedge hl => exact .cons hedge (ih.2 ⟨k, hl, hl'⟩)

theorem walks_snoc :
    p.Walks n (l ++ [edge]) m ↔ p.Walks n l edge.source ∧ edge ∈ p.edges ∧ m = edge.target := by
  rw [walks_append]
  constructor
  · rintro ⟨k, hl, h⟩
    cases h with
    | cons hedge h => exact ⟨hl, hedge, walks_nil.1 h⟩
  · rintro ⟨hl, hedge, rfl⟩
    exact ⟨_, hl, .cons hedge (.nil _)⟩

theorem openCalls_snoc : openCalls (l ++ [edge]) = (openCalls l).bind (nest · edge) := by
  simp [openCalls, List.foldlM_append]

/-- An edge leaves the open calls nested. They start from another function afterwards only if the
edge leaves the root. -/
theorem Nested.step (hp : p.Framed) (hedge : edge ∈ p.edges)
    (h : p.Nested base stack (p.functionIdOf edge.source)) (hs : nest stack edge = some stack') :
    ∃ base', p.Nested base' stack' (p.functionIdOf edge.target) ∧
      (base' = base ∨ edge.kind = .root ∧ p.functionIdOf edge.target = base') := by
  have hframed := hp edge hedge
  unfold IsFramed at hframed
  unfold nest at hs
  cases hk : edge.kind with
  | flow | callToReturn =>
    rw [hk] at hs hframed
    cases hs
    exact ⟨base, hframed ▸ h, .inl rfl⟩
  | enter =>
    rw [hk] at hs
    cases hs
    exact ⟨base, ⟨hedge, hk, rfl, h⟩, .inl rfl⟩
  | leave c =>
    rw [hk] at hs hframed
    cases stack with
    | nil => cases hs
    | cons call outer =>
      dsimp only at hs
      split at hs
      · rename_i hc
        cases hs
        obtain ⟨-, -, -, houter⟩ := h
        exact ⟨base, hframed.2 ▸ hc ▸ houter, .inl rfl⟩
      · cases hs
  | root =>
    rw [hk] at hs hframed
    cases hs
    cases stack with
    | nil => exact ⟨_, rfl, .inr ⟨rfl, rfl⟩⟩
    | cons call outer =>
      obtain ⟨hcall, hkind, hf, -⟩ := h
      have hcallee := hp call hcall
      unfold IsFramed at hcallee
      rw [hkind] at hcallee
      dsimp only at hcallee hframed
      rw [← hf, hframed] at hcallee
      cases hcallee

/-- The calls that are open after a walk are nested. They start from the function that the walk
starts in, or from one that an edge from the root leads into. -/
theorem nested_of_walks (hp : p.Framed) (h : p.Walks n l m) (hs : openCalls l = some stack) :
    ∃ base, p.Nested base stack (p.functionIdOf m) ∧
      (base = p.functionIdOf n ∨ ∃ edge ∈ l, edge.kind = .root ∧ p.functionIdOf edge.target = base)
    := by
  induction l using List.reverseRecOn generalizing m stack with
  | nil =>
    cases h
    cases hs
    exact ⟨_, rfl, .inl rfl⟩
  | append_singleton l edge ih =>
    rw [openCalls_snoc, Option.bind_eq_some_iff] at hs
    obtain ⟨before, hbefore, hs⟩ := hs
    obtain ⟨hl, hedge, rfl⟩ := walks_snoc.1 h
    obtain ⟨base, hnested, hbase⟩ := ih hl hbefore
    obtain ⟨base', hnested', rfl | ⟨hk, hf⟩⟩ := hnested.step hp hedge hs
    · refine ⟨base', hnested', hbase.imp_right ?_⟩
      rintro ⟨first, hfirst, hroot⟩
      exact ⟨first, List.mem_append_left _ hfirst, hroot⟩
    · exact ⟨base', hnested', .inr ⟨edge, by simp, hk, hf⟩⟩

theorem functionIdOf_of_open (hp : p.Framed) (h : p.Walks n l m)
    (hs : openCalls l = some (call :: outer)) :
    call.kind = .enter ∧ p.functionIdOf m = p.functionIdOf call.target := by
  obtain ⟨base, ⟨-, hkind, hf, -⟩, -⟩ := nested_of_walks hp h hs
  exact ⟨hkind, hf⟩

/-- Where no call is open, a walk from the root is in a function that it entered from the root. -/
theorem exists_root_edge (hp : p.Framed) (hroot : p.functionIdOf root = none)
    (h : p.Walks root l m) (hs : openCalls l = some []) (hm : (p.functionIdOf m).isSome) :
    ∃ edge ∈ l, edge.kind = .root ∧ p.functionIdOf edge.target = p.functionIdOf m := by
  obtain ⟨base, hf, hbase⟩ := nested_of_walks hp h hs
  obtain rfl : p.functionIdOf m = base := hf
  refine hbase.resolve_left fun hnone => ?_
  rw [hnone, hroot] at hm
  cases hm

theorem mem_of_openCalls (hs : openCalls l = some stack) : ∀ call ∈ stack, call ∈ l := by
  induction l using List.reverseRecOn generalizing stack with
  | nil =>
    cases hs
    simp
  | append_singleton l edge ih =>
    rw [openCalls_snoc, Option.bind_eq_some_iff] at hs
    obtain ⟨before, hbefore, hs⟩ := hs
    have hold := ih hbefore
    intro call hcall
    unfold nest at hs
    split at hs
    · cases hs
      rcases List.mem_cons.1 hcall with rfl | hcall
      · simp
      · simp [hold call hcall]
    · split at hs
      · cases hs
        simp [hold call (by simp [hcall])]
      · cases hs
    · cases hs
    · cases hs
      simp [hold call hcall]

end Program

namespace Draft

variable {d : Draft} {edge : Edge}

/-- Whether an edge of a draft has the ends that its kind asks for; an edge inside a function may
have any. -/
def Joins (d : Draft) (edge : Edge) : Prop :=
  match edge.kind with
  | .flow _ => True
  | .callToReturn =>
    ∃ f, d.functionIdOf edge.source = some f ∧ d.functionIdOf edge.target = some f
  | .enter => (d.functionIdOf edge.target).isSome
  | .leave call => (d.functionIdOf edge.source).isSome ∧
      ∃ f, d.functionIdOf edge.target = some f ∧ d.functionIdOf call = some f
  | .root => edge.source = Program.root

/-- A draft whose functions start and end at nodes of functions and whose edges have the ends that
their kinds ask for. -/
structure Joined (d : Draft) : Prop where
  functions : ∀ g ∈ d.functions,
    (d.functionIdOf g.entry).isSome ∧ (d.functionIdOf g.exit).isSome
  edges : ∀ edge ∈ d.edges, d.Joins edge

theorem functionIdOf_addNode {f : FunctionId} {kind : NodeKind} {stmt : Option Statement}
    {location : Option Location} {n : NodeId} : (d.addNode f kind stmt location).functionIdOf n =
      if n = d.nodes.size then some f else d.functionIdOf n := by
  unfold addNode Program.functionIdOf
  rw [Array.getElem?_push]
  split <;> rfl

theorem functionIdOf_addNode_of_some {f g : FunctionId} {kind : NodeKind} {stmt : Option Statement}
    {location : Option Location} {n : NodeId} (h : d.functionIdOf n = some g) :
    (d.addNode f kind stmt location).functionIdOf n = some g := by
  rw [functionIdOf_addNode, if_neg, h]
  rintro rfl
  simp [Program.functionIdOf] at h

theorem Joins.addNode (h : d.Joins edge) (f : FunctionId) (kind : NodeKind)
    (stmt : Option Statement) (location : Option Location) :
    (d.addNode f kind stmt location).Joins edge := by
  have hstays : ∀ {n g}, d.functionIdOf n = some g →
      (d.addNode f kind stmt location).functionIdOf n = some g := functionIdOf_addNode_of_some
  have hsome : ∀ {n}, (d.functionIdOf n).isSome →
      ((d.addNode f kind stmt location).functionIdOf n).isSome := by
    intro n hn
    obtain ⟨g, hg⟩ := Option.isSome_iff_exists.1 hn
    rw [hstays hg]
    rfl
  unfold Joins at h ⊢
  cases hk : edge.kind with
  | flow => trivial
  | callToReturn =>
    rw [hk] at h
    exact h.imp fun g hg => ⟨hstays hg.1, hstays hg.2⟩
  | enter =>
    rw [hk] at h
    exact hsome h
  | leave call =>
    rw [hk] at h
    exact ⟨hsome h.1, h.2.imp fun g hg => ⟨hstays hg.1, hstays hg.2⟩⟩
  | root =>
    rw [hk] at h
    exact h

theorem Joined.addNode (h : d.Joined) (f : FunctionId) (kind : NodeKind)
    (stmt : Option Statement) (location : Option Location) :
    (d.addNode f kind stmt location).Joined := by
  refine ⟨fun g hg => ?_, fun edge hedge => (h.edges edge hedge).addNode f kind stmt location⟩
  obtain ⟨hentry, hexit⟩ := h.functions g hg
  obtain ⟨a, ha⟩ := Option.isSome_iff_exists.1 hentry
  obtain ⟨b, hb⟩ := Option.isSome_iff_exists.1 hexit
  rw [functionIdOf_addNode_of_some ha, functionIdOf_addNode_of_some hb]
  exact ⟨rfl, rfl⟩

theorem Joined.addEdge (h : d.Joined) {source target : NodeId} {kind : EdgeKind}
    (hedge : d.Joins ⟨source, target, kind⟩) : (d.addEdge source target kind).Joined := by
  refine ⟨h.functions, fun edge hmem => ?_⟩
  rcases Array.mem_push.1 hmem with hmem | rfl
  · exact h.edges edge hmem
  · exact hedge

theorem Joined.addFlow (h : d.Joined) (source target : NodeId) (guard : Guard) :
    (d.addEdge source target (.flow guard)).Joined :=
  h.addEdge (show d.Joins ⟨source, target, .flow guard⟩ from trivial)

theorem Joined.modifyFunction (h : d.Joined) (f : FunctionId) {change : Function → Function}
    (hentry : ∀ g : Function, (change g).entry = g.entry)
    (hexit : ∀ g : Function, (change g).exit = g.exit) : (d.modifyFunction f change).Joined := by
  refine ⟨fun g hg => ?_, h.edges⟩
  obtain ⟨i, hi⟩ := Array.mem_iff_getElem?.1 hg
  rw [Draft.modifyFunction, Array.getElem?_modify] at hi
  split at hi
  · obtain ⟨g', hg', rfl⟩ := Option.map_eq_some_iff.1 hi
    rw [hentry, hexit]
    exact h.functions g' (Array.mem_of_getElem? hg')
  · exact h.functions g (Array.mem_of_getElem? hi)

theorem Joined.addFunction (h : d.Joined) (name : String) (location : Option Location) :
    (d.addFunction name location).Joined := by
  have hnodes := (h.addNode d.functions.size .entry none none).addNode d.functions.size .exit
    none none
  refine ⟨fun g hg => ?_, hnodes.edges⟩
  rcases Array.mem_push.1 hg with hg | rfl
  · exact hnodes.functions g hg
  · have hsize : (d.addNode d.functions.size .entry none none).nodes.size = d.nodes.size + 1 := by
      simp [Draft.addNode]
    constructor
    · exact Option.isSome_of_eq_some
        (functionIdOf_addNode_of_some (functionIdOf_addNode.trans (if_pos rfl)))
    · exact Option.isSome_of_eq_some (functionIdOf_addNode.trans (if_pos hsize.symm))

theorem Joined.addCall (h : d.Joined) (caller : FunctionId) (stmt : Statement) {g : Function}
    (hg : g ∈ d.functions) (location : Option Location) :
    (d.addCall caller stmt g location).Joined := by
  have hnodes := (h.addNode caller .call (some stmt) location).addNode caller .returnSite none
    location
  have hsize : (d.addNode caller .call (some stmt) location).nodes.size = d.nodes.size + 1 := by
    simp [Draft.addNode]
  have hcall : ((d.addNode caller .call (some stmt) location).addNode caller .returnSite none
      location).functionIdOf d.nodes.size = some caller :=
    functionIdOf_addNode_of_some (functionIdOf_addNode.trans (if_pos rfl))
  have hsite : ((d.addNode caller .call (some stmt) location).addNode caller .returnSite none
      location).functionIdOf (d.nodes.size + 1) = some caller :=
    functionIdOf_addNode.trans (if_pos hsize.symm)
  obtain ⟨hentry, hexit⟩ := hnodes.functions g hg
  refine Joined.addEdge (Joined.addEdge (Joined.addEdge hnodes ?_) ?_) ?_
  · exact hentry
  · exact ⟨caller, hcall, hsite⟩
  · exact ⟨hexit, caller, hsite, hcall⟩

/-- Each step leaves the edges of a draft joined to nodes of functions. -/
theorem Joined.run (h : d.Joined) (s : Step) : (s.run d).Joined := by
  cases s with
  | addGlobal name ty => exact ⟨h.functions, h.edges⟩
  | addFunction name location => exact h.addFunction name location
  | addParam f name ty | addLocal f name ty | addTemporary f name ty | setEnd f location =>
    exact h.modifyFunction f (fun _ => rfl) fun _ => rfl
  | addStatement f stmt location =>
    change (d.addStatement f stmt location).Joined
    unfold addStatement
    refine Joined.addNode ?_ _ _ _ _
    split
    · exact h.modifyFunction f (fun _ => rfl) fun _ => rfl
    · exact h
  | addNode f kind stmt location => exact h.addNode f kind stmt location
  | addCall caller stmt callee location =>
    cases hg : d.functions[callee]? with
    | none => simpa [Step.run, hg] using h
    | some g => simpa [Step.run, hg] using h.addCall caller stmt (Array.mem_of_getElem? hg) location
  | addEdge a b | addSwitch a b cases => exact h.addFlow a b _
  | addBranch a b c => exact (h.addFlow a b _).addFlow a c _
  | markEntryPoint f =>
    change (d.markEntryPoint f).Joined
    unfold markEntryPoint
    split
    · exact h
    · exact ⟨h.functions, h.edges⟩

theorem joined_of_steps {steps : List Step} (hd : ofSteps? steps = some d) : d.Joined :=
  ofSteps_induction (P := Joined) ⟨by simp [empty], by simp [empty]⟩ (fun _ s h _ => h.run s) hd

/-- A program that was drawn up step by step has edges with the ends that their kinds ask for, as
long as the edges inside functions have. -/
theorem framed_build {steps : List Step} {p : Program} (hd : ofSteps? steps = some d)
    (hp : d.build = .ok p) (hflow : ∀ edge ∈ p.edges, ∀ guard, edge.kind = .flow guard →
      p.functionIdOf edge.target = p.functionIdOf edge.source) : p.Framed := by
  have hroot := (wellFormed_build hd hp).functionIdOf_root
  have hjoined := joined_of_steps hd
  obtain rfl := eq_finish_of_build hp
  intro edge hedge
  unfold Program.IsFramed
  rcases Array.mem_append.1 hedge with hold | hnew
  · have hjoins := hjoined.edges edge hold
    unfold Joins at hjoins
    cases hk : edge.kind with
    | flow guard => exact hflow edge hedge guard hk
    | callToReturn =>
      rw [hk] at hjoins
      obtain ⟨f, hsource, htarget⟩ := hjoins
      exact htarget.trans hsource.symm
    | enter =>
      rw [hk] at hjoins
      exact hjoins
    | leave call =>
      rw [hk] at hjoins
      obtain ⟨hsource, f, htarget, hcall⟩ := hjoins
      exact ⟨hsource, htarget.trans hcall.symm⟩
    | root =>
      rw [hk] at hjoins
      dsimp only at hjoins ⊢
      rw [hjoins]
      exact hroot
  · obtain ⟨f, -, hf⟩ := List.mem_filterMap.1 (List.mem_toArray.1 hnew)
    obtain ⟨g, -, rfl⟩ := Option.map_eq_some_iff.1 hf
    exact hroot

end Draft

end Typestate

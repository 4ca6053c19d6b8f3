import Mathlib.Data.Finset.Option
import Mathlib.Data.Finset.Prod
import Typestate.Automaton.Script
import Typestate.Proofs.Facts.Termination
import Typestate.Proofs.Match.Possible
import Typestate.Proofs.States.Incidents

/-!
# The states pass comes to an end

Classes of other functions travel along, but every class that a value tells of is one of some
node. The states of a class are the default one, one that an outcome goes to or one that an action
enters. If actions enter finitely many states there is only so much that a value can tell, and a
meet that changes a value adds to what it tells.
-/
namespace Typestate

namespace Outcome

def action? : Outcome → Option Action
  | goto _ => none
  | guarded _ o => o.action?
  | action a => some a

def target? : Outcome → Option State
  | goto s => some s
  | guarded _ o => o.target?
  | action _ => none

theorem of_onBranch {branch : Option Bool} {o o' : Outcome} (h : o.onBranch branch = some o') :
    o'.action? = o.action? ∧ o'.target? = o.target? := by
  induction o with
  | goto s | action a =>
    obtain rfl := Option.some.inj h
    exact ⟨rfl, rfl⟩
  | guarded value o ih =>
    unfold onBranch at h
    split at h
    · exact ih h
    · cases h

end Outcome

/-- Whether an action that succeeds enters only some states. -/
def Action.EntersOnly (a : Action) (T : Finset State) : Prop :=
  ∀ view effects, a.run view = (.ok (), effects) → ∀ s ∈ effects.states, s ∈ T

/-- Whether an outcome leads to some states only. -/
structure Outcome.EntersOnly (o : Outcome) (T : Finset State) : Prop where
  target : ∀ s, o.target? = some s → s ∈ T
  action : ∀ a, o.action? = some a → a.EntersOnly T

namespace Automaton

variable {a : Automaton} {T : Finset State} {o : Outcome}

def actions (a : Automaton) : List Action := a.outcomes.filterMap Outcome.action?

/-- The default state, the states that outcomes go to, and some more that actions may enter. -/
def statesWith (a : Automaton) (T : Finset State) : Finset State :=
  insert a.default (T ∪ (a.outcomes.filterMap Outcome.target?).toFinset)

theorem entersOnly_of_mem_outcomes (hT : ∀ x ∈ a.actions, x.EntersOnly T)
    (ho : o ∈ a.outcomes) : o.EntersOnly (a.statesWith T) where
  target s hs := by
    have htargets : s ∈ a.outcomes.filterMap Outcome.target? := List.mem_filterMap.2 ⟨o, ho, hs⟩
    simp [statesWith, htargets]
  action x hx := by
    have hactions : x ∈ a.actions := List.mem_filterMap.2 ⟨o, ho, hx⟩
    intro view effects hrun s hs
    have hmem := hT x hactions view effects hrun s hs
    simp [statesWith, hmem]

theorem entersOnly_of_mem_possibleAt (hT : ∀ x ∈ a.actions, x.EntersOnly T) {p : Program}
    {leaked : List Expr} {e : EdgeId} {m : PossibleMatch} (hm : m ∈ a.possibleAt p leaked e)
    (ho : o ∈ m.outcomes) : o.EntersOnly (a.statesWith T) := by
  obtain ⟨source, target, guard, c, r, found, -, hc, hr, -, -, heq⟩ :=
    exists_rule_of_mem_possibleAt hm
  rw [heq] at ho
  obtain ⟨o', ho', hbranch⟩ := List.mem_filterMap.1 ho
  have hrule : (r, r.location.or c.location) ∈ a.rules :=
    List.mem_flatMap.2 ⟨c, hc, List.mem_map.2 ⟨r, hr, rfl⟩⟩
  have hmem : o' ∈ a.outcomes := List.mem_flatMap.2 ⟨_, hrule, ho'⟩
  obtain ⟨htarget, haction⟩ := entersOnly_of_mem_outcomes hT hmem
  obtain ⟨hsameAction, hsameTarget⟩ := Outcome.of_onBranch hbranch
  exact ⟨hsameTarget ▸ htarget, hsameAction ▸ haction⟩

end Automaton

/-- Whether all states that keys may be in are among some. -/
def SortedMap.Among {κ : Type} [Ord κ] [DecidableEq κ] (m : SortedMap κ States)
    (T : Finset State) : Prop :=
  ∀ k t, m.MayBe k t → t ∈ T

/-- Whether the classes and states that a value tells of are among some. -/
structure NodeStates.Among (v : NodeStates) (K : Finset EquivClass) (T : Finset State) :
    Prop where
  classes : ∀ c s, v.map.get? c = some s → c ∈ K
  states : v.map.Among T

variable {K : Finset EquivClass} {T : Finset State}

theorem SortedMap.Among.insert {m : ExprStates} (h : m.Among T) {s : States}
    (hs : ∀ t ∈ s, t ∈ T) (e : Expr) : (m.insert e s).Among T := by
  intro e' t ht
  rw [mayBe_insert] at ht
  split at ht
  · exact hs t ht
  · exact h e' t ht

namespace NodeStates

variable {v w : NodeStates}

theorem Among.statesOf (h : v.Among K T) {e : Expr} {s : States} (hs : v.statesOf e = some s) :
    ∀ t ∈ s, t ∈ T := by
  rw [statesOf_eq_bind, Option.bind_eq_some_iff] at hs
  obtain ⟨c, -, hs⟩ := hs
  exact fun t ht => h.states c t ⟨s, hs, ht⟩

theorem Among.statesOf_getD (h : v.Among K T) {defaults : States} (hd : ∀ t ∈ defaults, t ∈ T)
    (e : Expr) : ∀ t ∈ (v.statesOf e).getD defaults, t ∈ T := by
  cases hs : v.statesOf e with
  | none => exact hd
  | some s => exact h.statesOf hs

theorem Among.flatten (h : v.Among K T) (scope : Option FunctionId) :
    (v.flatten scope).Among T := by
  intro e t ht
  obtain ⟨c, -, -, ht⟩ := mayBe_flatten.1 ht
  exact h.states c t ht

theorem Among.handOver (h : v.Among K T) (pairs : List (Expr × Expr)) {exprs : ExprStates}
    (hexprs : exprs.Among T) : (v.handOver pairs exprs).Among T := by
  unfold NodeStates.handOver
  induction pairs generalizing exprs with
  | nil => exact hexprs
  | cons x pairs ih =>
    obtain ⟨target, source⟩ := x
    apply ih
    dsimp only
    cases hs : v.statesOf source with
    | none => exact hexprs
    | some s => exact hexprs.insert (h.statesOf hs) target

theorem Among.of_get? (h : v.Among K T)
    (hw : ∀ c s, w.map.get? c = some s → v.map.get? c = some s) : w.Among K T where
  classes c s hs := h.classes c s (hw c s hs)
  states c t := by
    rintro ⟨s, hs, ht⟩
    exact h.states c t ⟨s, hw c s hs, ht⟩

theorem Among.without (h : v.Among K T) (f : FunctionId) : (v.without f).Among K T := by
  apply h.of_get?
  intro c s hs
  rw [get?_without] at hs
  split at hs
  · cases hs
  · exact hs

end NodeStates

namespace StatesContext

def allClasses (ctx : StatesContext) : Finset EquivClass :=
  (ctx.classes.toList.flatMap (·.toList)).toFinset

/-- The default state is among some, and so are those that rules lead to along all edges. -/
structure EntersOnly (ctx : StatesContext) (T : Finset State) : Prop where
  default : ctx.automaton.default ∈ T
  rules : ∀ e, ∀ m ∈ ctx.possibleAt e, ∀ o ∈ m.outcomes, o.EntersOnly T

variable {ctx : StatesContext} {k n n' : NodeId} {v w u : NodeStates} {c : EquivClass}
  {s : State} {m : PossibleMatch} {l : List PossibleMatch} {e : EdgeId}

theorem mem_allClasses (hc : c ∈ ctx.classesAt n) : c ∈ ctx.allClasses := by
  unfold classesAt at hc
  cases hn : ctx.classes[n]? with
  | none =>
    rw [hn] at hc
    exact absurd hc (SortedSet.not_mem_empty c)
  | some x =>
    rw [hn] at hc
    rw [allClasses, List.mem_toFinset, List.mem_flatMap]
    exact ⟨x, Array.mem_toList_iff.2 (Array.mem_of_getElem? hn), hc⟩

theorem EntersOnly.mem_defaults (h : ctx.EntersOnly T) : ∀ t ∈ ctx.defaults, t ∈ T := by
  intro t ht
  rw [StatesContext.mem_defaults.1 ht]
  exact h.default

section Rules

theorem mem_runOutcome {before : States × List Incident} (hbefore : ∀ t ∈ before.1, t ∈ T)
    {o : Outcome} (ho : o.EntersOnly T) :
    ∀ t ∈ (ctx.runOutcome k c m s before o).1, t ∈ T := by
  cases o with
  | goto s' =>
    intro t ht
    rw [SortedSet.mem_singleton.1 ht]
    exact ho.target s' rfl
  | guarded value o => exact hbefore
  | action a =>
    rcases hrun : a.run (ctx.viewAt k m s) with ⟨result, effects⟩
    cases result with
    | error e => simpa [runOutcome, hrun] using hbefore
    | ok _ =>
      simp only [runOutcome, hrun]
      split
      · exact hbefore
      · exact fun t ht => ho.action a rfl _ _ hrun t (SortedSet.mem_ofList.1 ht)

theorem mem_fire (hs : s ∈ T) (hm : ∀ o ∈ m.outcomes, o.EntersOnly T) :
    ∀ t ∈ (ctx.fire k c s m).states, t ∈ T := by
  have run : ∀ (l : List Outcome) (before : States × List Incident), (∀ o ∈ l, o.EntersOnly T) →
      (∀ t ∈ before.1, t ∈ T) → ∀ t ∈ (l.foldl (ctx.runOutcome k c m s) before).1, t ∈ T := by
    intro l
    induction l with
    | nil => exact fun _ _ h => h
    | cons o l ih =>
      intro before hl h
      exact ih _ (fun o' ho' => hl o' (by simp [ho'])) (mem_runOutcome h (hl o (by simp)))
  apply run m.outcomes _ hm
  intro t ht
  rw [SortedSet.mem_singleton.1 ht]
  exact hs

theorem mem_fireIn {g : RuleGroup} (hs : s ∈ T)
    (hg : ∀ m ∈ g.rules, ∀ o ∈ m.outcomes, o.EntersOnly T) :
    ∀ t ∈ (ctx.fireIn k g s).states, t ∈ T := by
  intro t ht
  rcases mem_states_fireIn.1 ht with ⟨m, hm, -, ht⟩ | ⟨-, rfl⟩
  · exact mem_fire hs (hg m hm) t ht
  · exact hs

theorem among_applyRules (hv : v.Among K T) (hl : ∀ m ∈ l, ∀ o ∈ m.outcomes, o.EntersOnly T)
    {exprs : ExprStates} (hexprs : exprs.Among T) :
    (ctx.applyRules k v l exprs).exprs.Among T := by
  refine applyRules_induction (P := (·.Among T)) hexprs ?_
  intro x hx current hcurrent m hm e t ht
  rw [SortedMap.mayBe_foldl_insert] at ht
  split at ht
  · obtain ⟨s, hs, ht⟩ := mem_fireGroup.1 ht
    refine mem_fireIn (hv.states _ s ⟨current, hcurrent, hs⟩) (fun m hm => ?_) t ht
    exact hl m ((v.sorts_groupRules l).sound (SortedMap.mem_entries_iff.1 hx) hm).1
  · exact hm e t ht

end Rules

section Edges

variable (hT : ctx.EntersOnly T)
include hT

theorem EntersOnly.gather {exprs : ExprStates} (hexprs : exprs.Among T) :
    ∀ t ∈ ctx.gather exprs c, t ∈ T := by
  intro t ht
  rcases mem_gather.1 ht with ⟨e, -, ht⟩ | ⟨-, rfl⟩
  · exact hexprs e t ht
  · exact hT.default

/-- What is gathered at a node tells of the classes there and of classes that travel along. -/
theorem EntersOnly.regroup {exprs : ExprStates} (hexprs : exprs.Among T)
    (hw : w.Among ctx.allClasses T) (scope : Option FunctionId) :
    (ctx.regroup n exprs (w.carried scope)).Among ctx.allClasses T := by
  have hcarried : ∀ c s, (w.carried scope).get? c = some s → w.map.get? c = some s := by
    intro c s hs
    rw [NodeStates.get?_carried] at hs
    split at hs
    · cases hs
    · exact hs
  refine ⟨fun c s hs => ?_, fun c t ht => ?_⟩
  · rcases exists_get?_regroup.1 ⟨s, hs⟩ with hc | ⟨s', hs'⟩
    · exact mem_allClasses hc
    · exact hw.classes c s' (hcarried c s' hs')
  · rcases mayBe_regroup_iff.1 ht with ⟨-, ht⟩ | ⟨s', hs', ht⟩
    · exact hT.gather hexprs t ht
    · exact hw.states c t ⟨s', hcarried c s' hs', ht⟩

theorem EntersOnly.copied (hv : v.Among ctx.allClasses T) (target source : Expr) :
    (ctx.copied v n target source).Among ctx.allClasses T := by
  apply hT.regroup _ hv
  exact (hv.flatten _).insert (hv.statesOf_getD hT.mem_defaults source) target

theorem EntersOnly.applied (hv : v.Among ctx.allClasses T)
    (hl : ∀ m ∈ l, ∀ o ∈ m.outcomes, o.EntersOnly T)
    (h : (ctx.applied v k n l).result = some u) : u.Among ctx.allClasses T := by
  obtain rfl := Option.some.inj h
  exact hT.regroup (among_applyRules hv hl (hv.flatten _)) hv _

theorem EntersOnly.enter (hv : v.Among ctx.allClasses T) {call entry : NodeId}
    (h : ctx.enter v call entry = some u) : u.Among ctx.allClasses T := by
  simp only [StatesContext.enter, Option.bind_eq_bind, Option.bind_eq_some_iff] at h
  obtain ⟨callee, -, ⟨result, args⟩, -, h⟩ := h
  obtain rfl := Option.some.inj h
  have hrest := hv.without callee.id
  exact hT.regroup (hv.handOver _ (hrest.flatten _)) hrest _

theorem EntersOnly.leave (hv : v.Among ctx.allClasses T) {exit site call : NodeId}
    (h : ctx.leave v exit site call = some u) : u.Among ctx.allClasses T := by
  simp only [StatesContext.leave, Option.bind_eq_bind, Option.bind_eq_some_iff] at h
  obtain ⟨callee, -, ⟨result, args⟩, -, h⟩ := h
  obtain rfl := Option.some.inj h
  have hrest := hv.without callee.id
  have hexprs := hv.handOver ((args.map Expr.simplify).zip callee.paramExprs)
    (hrest.flatten (ctx.program.functionIdOf site))
  apply hT.regroup _ hrest
  cases result with
  | none => exact hexprs
  | some r =>
    apply hexprs.insert
    unfold returnedStates
    cases callee.returned with
    | none => exact hT.mem_defaults
    | some x => exact hv.statesOf_getD hT.mem_defaults x

/-- An edge brings classes of nodes and states that rules lead to, if its source has no others. -/
theorem EntersOnly.transfer (hv : v.Among ctx.allClasses T)
    (h : (ctx.transfer v e).result = some u) : u.Among ctx.allClasses T := by
  cases ctx.conducts e with
  | blocked heq =>
    rw [heq] at h
    cases h
  | root _ _ heq =>
    rw [heq] at h
    obtain rfl := Option.some.inj h
    exact hT.regroup (hv.flatten _) hv _
  | enter _ _ heq =>
    rw [heq] at h
    exact hT.enter hv h
  | leave _ _ heq =>
    rw [heq] at h
    exact hT.leave hv h
  | @flow edge guard _ _ _ heq =>
    rw [heq] at h
    cases hcopy : (ctx.program.stmtAt edge.source).bind Statement.copy? with
    | none =>
      rw [flow_of_copy_eq_none hcopy] at h
      exact hT.applied hv (hT.rules e) h
    | some pair =>
      have hleaks : ∀ m ∈ (ctx.possibleAt e).filter (·.isLeakRule), ∀ o ∈ m.outcomes,
          o.EntersOnly T := fun m hm => hT.rules e m (List.mem_filter.1 hm).1
      have hcopied := hT.copied hv (n := edge.target)
      rcases result_flow_cases hcopy h with ⟨-, rfl⟩ | ⟨-, h⟩
      · exact hcopied _ _
      · exact hT.applied (hcopied _ _) hleaks h

theorem EntersOnly.preserves :
    ctx.problem.Preserves fun _ v => v.Among ctx.allClasses T where
  seed n _ := by
    refine ⟨fun c s hs => mem_allClasses (fits_initial.keys c |>.1 ⟨s, hs⟩), fun c t ht => ?_⟩
    rw [(mayBe_initial.1 ht).2]
    exact hT.default
  transfer hv _ hu := hT.transfer hv hu
  meet {n v u} hv hu := by
    refine ⟨fun c s hs => ?_, fun c t ht => ?_⟩
    · rcases NodeStates.exists_get?_meet.1 ⟨s, hs⟩ with ⟨s', hs'⟩ | ⟨s', hs'⟩
      · exact hv.classes c s' hs'
      · exact hu.classes c s' hs'
    · rcases NodeStates.mayBe_of_meet ht with ht | ht | ht
      · exact hv.states c t ht
      · exact hu.states c t ht
      · exact hT.mem_defaults t ht

end Edges

end StatesContext

namespace NodeStates

variable {v w : NodeStates}

/-- What a value tells: that it knows a class, or that a class may be in a state. -/
def Tells (v : NodeStates) : EquivClass × Option State → Prop
  | (c, none) => ∃ s, v.map.get? c = some s
  | (c, some t) => v.map.MayBe c t

theorem eq_of_tells (hnode : v.node = w.node) (h : ∀ x, v.Tells x ↔ w.Tells x) : v = w := by
  have hmap : v.map = w.map :=
    SortedMap.eq_of_mayBe_iff (fun c => h (c, none)) fun c t => h (c, some t)
  cases v
  cases w
  cases hnode
  cases hmap
  rfl

open Classical in
/-- How much a value could still tell of some classes and states. -/
noncomputable def room (K : Finset EquivClass) (T : Finset State) (v : NodeStates) : ℕ :=
  ((K ×ˢ T.insertNone).filter fun x => ¬ v.Tells x).card

theorem Among.mem_of_tells (h : v.Among K T) {x : EquivClass × Option State} (hx : v.Tells x) :
    x ∈ K ×ˢ T.insertNone := by
  obtain ⟨c, t⟩ := x
  rw [Finset.mem_product, Finset.mem_insertNone]
  cases t with
  | none =>
    obtain ⟨s, hs⟩ := hx
    exact ⟨h.classes c s hs, nofun⟩
  | some t =>
    obtain ⟨s, hs, ht⟩ := hx
    refine ⟨h.classes c s hs, fun t' ht' => ?_⟩
    obtain rfl := Option.some.inj ht'
    exact h.states c t ⟨s, hs, ht⟩

/-- A value that tells more leaves less room. -/
theorem Among.room_lt (hw : w.Among K T) (hle : ∀ x, v.Tells x → w.Tells x)
    {x : EquivClass × Option State} (hx : w.Tells x) (hnew : ¬ v.Tells x) :
    w.room K T < v.room K T := by
  classical
  apply Finset.card_lt_card
  refine Finset.ssubset_iff_of_subset (fun y hy => ?_) |>.2 ⟨x, ?_, ?_⟩
  · obtain ⟨hmem, hy⟩ := Finset.mem_filter.1 hy
    exact Finset.mem_filter.2 ⟨hmem, fun h => hy (hle y h)⟩
  · exact Finset.mem_filter.2 ⟨hw.mem_of_tells hx, hnew⟩
  · exact fun h => (Finset.mem_filter.1 h).2 hx

theorem tells_meet {defaults : States} {scope : Option FunctionId}
    {x : EquivClass × Option State} (h : v.Tells x) : (v.meet defaults scope w).Tells x := by
  obtain ⟨c, t⟩ := x
  cases t with
  | none => exact exists_get?_meet.2 (.inl h)
  | some t => exact mayBe_meet_left h

end NodeStates

namespace StatesContext

/-- Values of the states pass go down: what they tell leaves less and less room. -/
theorem EntersOnly.descends {ctx : StatesContext} (hT : ctx.EntersOnly T) :
    ctx.problem.Descends (fun _ v => v.Among ctx.allClasses T)
      (NodeStates.room ctx.allClasses T) ctx.program.targets where
  toPreserves := hT.preserves
  successors _ _ he := Program.mem_targets he
  lower {n v u} hv hu hchanged := by
    have hgrows : ∀ x, v.Tells x → (ctx.meet v u).Tells x := fun _ => NodeStates.tells_meet
    have hnew : ∃ x, (ctx.meet v u).Tells x ∧ ¬ v.Tells x := by
      by_contra hnone
      push Not at hnone
      have hsame : ctx.meet v u = v := NodeStates.eq_of_tells rfl fun x => ⟨hnone x, hgrows x⟩
      exact hchanged hsame
    obtain ⟨x, hx, hnot⟩ := hnew
    exact (hT.preserves.meet (n := n) hv hu).room_lt hgrows hx hnot

variable {p : Program} {a : Automaton}

theorem entersOnly_of (facts : FactsSolution) (hT : ∀ x ∈ a.actions, x.EntersOnly T) :
    (StatesContext.of p a facts).EntersOnly (a.statesWith T) where
  default := Finset.mem_insert_self _ _
  rules _ _ hm _ ho := Automaton.entersOnly_of_mem_possibleAt hT (mem_possibleAt_of hm) ho

/-- If all actions of an automaton enter states of a finite set only, the states pass needs some
number of visits, whatever the program. With a limit that allows as many it has a solution, and
it gives up only if the limit is lower. -/
theorem problem_terminates (p : Program) (facts : FactsSolution)
    (hT : ∀ x ∈ a.actions, x.EntersOnly T) :
    ∃ needed states, ∀ pass limit, (StatesContext.of p a facts).problem.solve pass limit =
      if needed ≤ limit then .ok states else .error (.notConverged pass limit) :=
  (entersOnly_of facts hT).descends.exists_limit

section Retrying

/-- The program `f(p) { do { p = malloc(8); g(p); } while (..); }` with a function
`g(q) { if (..) f(q); }` that calls `f` back. -/
def retrying : Program :=
  let x : Variable := ⟨"p", some 0, .param, .pointer⟩
  let y : Variable := ⟨"q", some 1, .param, .pointer⟩
  let node (f : FunctionId) (kind : NodeKind) (stmt : Option Statement) : Node :=
    ⟨some f, kind, stmt, none⟩
  { nodes := #[⟨none, .root, none, none⟩, node 0 .entry none, node 0 .exit none,
      node 1 .entry none, node 1 .exit none,
      node 0 .statement (some (.call (some (.var x)) "malloc" [.lit 8])),
      node 0 .call (some (.call none "g" [.var x])), node 0 .returnSite none,
      node 1 .call (some (.call none "f" [.var y])), node 1 .returnSite none]
    edges := #[⟨6, 3, .enter⟩, ⟨6, 7, .callToReturn⟩, ⟨4, 7, .leave 6⟩, ⟨8, 1, .enter⟩,
      ⟨8, 9, .callToReturn⟩, ⟨2, 9, .leave 8⟩, ⟨1, 5, .flow .always⟩, ⟨5, 6, .flow .always⟩,
      ⟨7, 5, .flow .always⟩, ⟨7, 2, .flow .always⟩, ⟨3, 8, .flow .always⟩, ⟨3, 4, .flow .always⟩,
      ⟨9, 4, .flow .always⟩, ⟨0, 1, .root⟩, ⟨0, 3, .root⟩]
    functions := #[⟨0, "f", [x], [], 1, 2, none, none, none⟩,
      ⟨1, "g", [y], [], 3, 4, none, none, none⟩]
    globals := [] }

/-- An allocation that succeeds or fails. -/
def allocate : Action :=
  .ofScript "allocate" false [] [.enter (.named "ptr.owned"), .enter (.named "ptr.null")]

/-- The machine in which every allocation may succeed or fail. -/
def retries : Automaton :=
  let ptr : Decl := ⟨"ptr", .anyPointer, true, none⟩
  let machine : Machine :=
    { name := "retries"
      clauses := [.decl ptr, .states ⟨["ptr.*"],
        [⟨.shape (.callResult (.decl "ptr") "malloc"), [.action allocate], none⟩], none⟩] }
  machine.automaton ptr

/-- The loop and the calls back and forth do not keep the pass from coming to its end. -/
theorem problem_terminates_retrying : ∃ facts,
    retrying.factsProblem.solve "facts" 1000 = .ok facts ∧
    (∀ x ∈ retries.actions, x.EntersOnly {.named "ptr.owned", .named "ptr.null"}) ∧
    ∃ needed states, ∀ pass limit,
      (StatesContext.of retrying retries facts).problem.solve pass limit =
        if needed ≤ limit then .ok states else .error (.notConverged pass limit) := by
  obtain ⟨facts, hfacts, -⟩ := exists_eq_ok_of_any (retrying.factsProblem.solve "facts" 1000)
    (fun _ => true) (by decide +kernel)
  have hT : ∀ x ∈ retries.actions, x.EntersOnly {.named "ptr.owned", .named "ptr.null"} := by
    intro x hx view effects hrun s hs
    obtain rfl : x = allocate := List.mem_singleton.1 hx
    have heffects : effects = ⟨∅, [.named "ptr.owned", .named "ptr.null"], []⟩ :=
      (congrArg Prod.snd hrun).symm
    simpa [heffects] using hs
  exact ⟨facts, hfacts, hT, problem_terminates retrying facts hT⟩

end Retrying

end StatesContext

end Typestate

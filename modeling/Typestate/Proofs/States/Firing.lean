import Typestate.Proofs.States.Groups

/-!
# Rules fire state by state

What a group of rules leaves stems from the states of its class one by one, and each incident
tells of a rule in a state of its class. Rules that never fire leave everything as it was.
-/
namespace Typestate

namespace Firing

variable {l : List Firing}

theorem mem_join {t : State} : t ∈ (join l).states ↔ ∃ x ∈ l, t ∈ x.states := by
  have fold : ∀ (l : List Firing) (x : Firing),
      t ∈ (l.foldl append x).states ↔ t ∈ x.states ∨ ∃ y ∈ l, t ∈ y.states := by
    intro l
    induction l with
    | nil => simp
    | cons y l ih =>
      intro x
      rw [List.foldl_cons, ih]
      simp [append, or_assoc]
  simp [join, fold, none]

theorem found_join : (join l).found = l.flatMap (·.found) := by
  have fold : ∀ (l : List Firing) (x : Firing),
      (l.foldl append x).found = x.found ++ l.flatMap (·.found) := by
    intro l
    induction l with
    | nil => simp
    | cons y l ih =>
      intro x
      rw [List.foldl_cons, ih]
      simp [append]
  simp [join, fold, none]

theorem incidents_join : (join l).incidents = l.flatMap (·.incidents) := by
  have fold : ∀ (l : List Firing) (x : Firing),
      (l.foldl append x).incidents = x.incidents ++ l.flatMap (·.incidents) := by
    intro l
    induction l with
    | nil => simp
    | cons y l ih =>
      intro x
      rw [List.foldl_cons, ih]
      simp [append]
  simp [join, fold, none]

end Firing

namespace StatesContext

variable {ctx : StatesContext} {k n n' : NodeId} {c : EquivClass} {s : State} {m : PossibleMatch}

section Fire

theorem exists_mem_runOutcome {before : States × List Incident} (h : ∃ t, t ∈ before.1)
    (o : Outcome) : ∃ t, t ∈ (ctx.runOutcome k c m s before o).1 := by
  cases o with
  | goto t => exact ⟨t, SortedSet.mem_singleton.2 rfl⟩
  | guarded value o => exact h
  | action a =>
    rcases hrun : a.run (ctx.viewAt k m s) with ⟨result, effects⟩
    cases result with
    | error e => simpa [runOutcome, hrun] using h
    | ok _ =>
      simp only [runOutcome, hrun]
      split
      · exact h
      · rename_i hne
        obtain ⟨t, ht⟩ := List.exists_mem_of_ne_nil effects.states (by simpa using hne)
        exact ⟨t, SortedSet.mem_ofList.2 ht⟩

theorem exists_mem_fire (ctx : StatesContext) (k : NodeId) (c : EquivClass) (s : State)
    (m : PossibleMatch) : ∃ t, t ∈ (ctx.fire k c s m).states := by
  have run : ∀ (l : List Outcome) (before : States × List Incident), (∃ t, t ∈ before.1) →
      ∃ t, t ∈ (l.foldl (ctx.runOutcome k c m s) before).1 := by
    intro l
    induction l with
    | nil => exact fun _ h => h
    | cons o l ih => exact fun before h => ih _ (exists_mem_runOutcome h o)
  exact run m.outcomes _ ⟨s, SortedSet.mem_singleton.2 rfl⟩

theorem mem_incidents_runOutcome {before : States × List Incident} {o : Outcome} {f : Finding}
    (h : .finding f ∈ (ctx.runOutcome k c m s before o).2) :
    .finding f ∈ before.2 ∨ ∃ r, f = ctx.findingAt k c m s r := by
  cases o with
  | goto t => exact .inl h
  | guarded value o => exact .inl h
  | action a =>
    rcases hrun : a.run (ctx.viewAt k m s) with ⟨result, effects⟩
    cases result with
    | error e => exact .inl (by simpa [runOutcome, hrun] using h)
    | ok _ =>
      simp only [runOutcome, hrun] at h
      rcases List.mem_append.1 h with h | h
      · exact .inl h
      · obtain ⟨r, -, hr⟩ := List.mem_map.1 h
        exact .inr ⟨r, (Incident.finding.inj hr).symm⟩

theorem mem_incidents_fire {f : Finding} (h : .finding f ∈ (ctx.fire k c s m).incidents) :
    ∃ r, f = ctx.findingAt k c m s r := by
  have run : ∀ (l : List Outcome) (before : States × List Incident),
      .finding f ∈ (l.foldl (ctx.runOutcome k c m s) before).2 →
      .finding f ∈ before.2 ∨ ∃ r, f = ctx.findingAt k c m s r := by
    intro l
    induction l with
    | nil => exact fun _ h => .inl h
    | cons o l ih =>
      intro before h
      rcases ih _ h with h | h
      · exact mem_incidents_runOutcome h
      · exact .inr h
  rcases run m.outcomes _ h with h | h
  · cases h
  · exact h

variable {g : RuleGroup} {i : Incident}

theorem exists_mem_fireIn (ctx : StatesContext) (k : NodeId) (g : RuleGroup) (s : State) :
    ∃ t, t ∈ (ctx.fireIn k g s).states := by
  unfold fireIn
  dsimp only
  split
  · exact ⟨s, SortedSet.mem_singleton.2 rfl⟩
  · rename_i hne
    obtain ⟨m, hm⟩ := List.exists_mem_of_ne_nil (g.rules.filter (·.appliesTo s))
      (by simpa using hne)
    obtain ⟨t, ht⟩ := exists_mem_fire ctx k g.cls s m
    exact ⟨t, Firing.mem_join.2 ⟨_, List.mem_map.2 ⟨m, hm, rfl⟩, ht⟩⟩

theorem states_fireIn_of_found (h : (ctx.fireIn k g s).found = []) :
    (ctx.fireIn k g s).states = .singleton s := by
  unfold fireIn at h ⊢
  dsimp only at h ⊢
  split at h
  · rename_i hempty
    rw [if_pos hempty]
  · rename_i hne
    obtain ⟨m, hm⟩ := List.exists_mem_of_ne_nil (g.rules.filter (·.appliesTo s))
      (by simpa using hne)
    rw [Firing.found_join, List.flatMap_eq_nil_iff] at h
    exact absurd (h _ (List.mem_map.2 ⟨m, hm, rfl⟩)) (List.cons_ne_nil _ _)

/-- Each rule of a group that applies in a state fires there, and if none does the state stays. -/
theorem mem_states_fireIn {t : State} : t ∈ (ctx.fireIn k g s).states ↔
    (∃ m ∈ g.rules, m.appliesTo s = true ∧ t ∈ (ctx.fire k g.cls s m).states) ∨
      (∀ m ∈ g.rules, m.appliesTo s = false) ∧ t = s := by
  have hnone : (g.rules.filter (·.appliesTo s)).isEmpty = true ↔
      ∀ m ∈ g.rules, m.appliesTo s = false := by
    simp [List.filter_eq_nil_iff]
  unfold fireIn
  dsimp only
  split
  · rename_i hempty
    have hall := hnone.1 hempty
    rw [SortedSet.mem_singleton]
    constructor
    · exact fun ht => .inr ⟨hall, ht⟩
    · rintro (⟨m, hm, ha, -⟩ | ⟨-, ht⟩)
      · rw [hall m hm] at ha
        cases ha
      · exact ht
  · rename_i hne
    rw [Firing.mem_join, iff_comm, or_iff_left fun h => hne (hnone.2 h.1)]
    simp only [List.mem_map, List.mem_filter]
    constructor
    · rintro ⟨m, hm, ha, ht⟩
      exact ⟨_, ⟨m, ⟨hm, ha⟩, rfl⟩, ht⟩
    · rintro ⟨_, ⟨m, ⟨hm, ha⟩, rfl⟩, ht⟩
      exact ⟨m, hm, ha, ht⟩

theorem mem_incidents_fireIn : i ∈ (ctx.fireIn k g s).incidents ↔
    ∃ m ∈ g.rules, m.appliesTo s = true ∧ i ∈ (ctx.fire k g.cls s m).incidents := by
  have hfiring : ∀ m, m ∈ g.rules.filter (·.appliesTo s) ↔ m ∈ g.rules ∧ m.appliesTo s = true :=
    fun m => List.mem_filter
  unfold fireIn
  dsimp only
  split
  · rename_i hempty
    rw [List.isEmpty_iff.1 hempty] at hfiring
    constructor
    · intro h
      cases h
    · rintro ⟨m, hm, ha, -⟩
      cases (hfiring m).2 ⟨hm, ha⟩
  · rw [Firing.incidents_join, List.flatMap_map, List.mem_flatMap]
    simp only [hfiring, and_assoc]

variable {current : States}

theorem mem_fireGroup {t : State} :
    t ∈ (ctx.fireGroup k g current).states ↔ ∃ s ∈ current, t ∈ (ctx.fireIn k g s).states := by
  rw [fireGroup, Firing.mem_join]
  constructor
  · rintro ⟨x, hx, ht⟩
    obtain ⟨s, hs, rfl⟩ := List.mem_map.1 hx
    exact ⟨s, hs, ht⟩
  · rintro ⟨s, hs, ht⟩
    exact ⟨_, List.mem_map.2 ⟨s, hs, rfl⟩, ht⟩

theorem found_fireGroup_eq_nil : (ctx.fireGroup k g current).found = [] ↔
    ∀ s ∈ current, (ctx.fireIn k g s).found = [] := by
  rw [fireGroup, Firing.found_join, List.flatMap_eq_nil_iff, List.forall_mem_map]
  rfl

theorem mem_fireGroup_of_found (h : ∀ s ∈ current, (ctx.fireIn k g s).found = []) {t : State} :
    t ∈ (ctx.fireGroup k g current).states ↔ t ∈ current := by
  rw [mem_fireGroup]
  constructor
  · rintro ⟨s, hs, ht⟩
    rw [states_fireIn_of_found (h s hs), SortedSet.mem_singleton] at ht
    exact ht ▸ hs
  · intro ht
    refine ⟨t, ht, ?_⟩
    rw [states_fireIn_of_found (h t ht)]
    exact SortedSet.mem_singleton.2 rfl

theorem mem_incidents_fireGroup : i ∈ (ctx.fireGroup k g current).incidents ↔
    ∃ s ∈ current, ∃ m ∈ g.rules, m.appliesTo s = true ∧
      i ∈ (ctx.fire k g.cls s m).incidents := by
  rw [fireGroup, Firing.incidents_join, List.flatMap_map, List.mem_flatMap]
  simp only [mem_incidents_fireIn, SortedSet.mem_def]

end Fire

section Groups

variable {v w : NodeStates} {l : List PossibleMatch} {i : Incident}

theorem groupRules_congr (hreg : ctx.Regular) (hv : ctx.Fits n v) (hw : ctx.Fits n w) :
    v.groupRules l = w.groupRules l := by
  have hadd : v.addRule = w.addRule := by
    funext groups m
    rw [NodeStates.addRule, NodeStates.addRule, hv.classOf_congr hreg hw]
  rw [NodeStates.groupRules, NodeStates.groupRules, hadd]

/-- A group of rules of a list: its targets are in its class, which is one at the node. -/
structure IsGroup (ctx : StatesContext) (n : NodeId) (l : List PossibleMatch)
    (targets : EquivClass) (g : RuleGroup) : Prop where
  cls : g.cls ∈ ctx.classesAt n
  nonempty : ∃ e, e ∈ targets
  subset : ∀ e ∈ targets, e ∈ g.cls
  rules : ∀ m ∈ g.rules, m ∈ l ∧ m.expr.simplify ∈ g.cls

theorem isGroup_of_mem_groupRules (hreg : ctx.Regular) (hv : ctx.Fits n v)
    {x : EquivClass × RuleGroup} (hx : x ∈ (v.groupRules l).entries) :
    ctx.IsGroup n l x.1 x.2 := by
  obtain ⟨m, -, hc, hm, hsub⟩ := NodeStates.exists_rule_of_mem_groupRules hx
  refine ⟨((hv.classOf_eq_some hreg).1 hc).1, ⟨_, hm⟩, hsub, fun m' hm' => ?_⟩
  obtain ⟨hl, hc', -⟩ := (v.sorts_groupRules l).sound (SortedMap.mem_entries_iff.1 hx) hm'
  exact ⟨hl, (NodeStates.mem_of_classOf hc').1⟩

theorem stateThreads_fireGroup {g : RuleGroup} (hcls : g.cls ∈ ctx.classesAt n) :
    ctx.StateThreads n fun v => (ctx.fireGroup k g ((v.map.get? g.cls).getD ∅)).states where
  nonempty {v} hv := by
    obtain ⟨current, hcurrent⟩ := hv.get?_of_mem hcls
    obtain ⟨s, hs⟩ := hv.nonempty hcurrent
    obtain ⟨t, ht⟩ := exists_mem_fireIn ctx k g s
    refine ⟨t, mem_fireGroup.2 ⟨s, ?_, ht⟩⟩
    rw [hcurrent]
    exact hs
  stems {v t} hv ht := by
    obtain ⟨current, hcurrent⟩ := hv.get?_of_mem hcls
    obtain ⟨s, hs, ht⟩ := mem_fireGroup.1 ht
    rw [hcurrent] at hs
    refine .inr ⟨g.cls, s, ⟨current, hcurrent, hs⟩, ?_⟩
    rintro w - ⟨current', hcurrent', hs'⟩
    refine mem_fireGroup.2 ⟨s, ?_, ht⟩
    rw [hcurrent']
    exact hs'

theorem exprs_applyGroup {x : EquivClass × RuleGroup} (hcls : x.2.cls ∈ ctx.classesAt n)
    (hv : ctx.Fits n v) (r : Applied) : (ctx.applyGroup k v r x).exprs =
      x.1.toList.foldl (fun m e => m.insert e
        (ctx.fireGroup k x.2 ((v.map.get? x.2.cls).getD ∅)).states) r.exprs := by
  obtain ⟨current, hcurrent⟩ := hv.get?_of_mem hcls
  unfold applyGroup
  rw [hcurrent]
  rfl

theorem exprThreads_foldl_applyGroup {groups : List (EquivClass × RuleGroup)}
    (hgroups : ∀ x ∈ groups, x.2.cls ∈ ctx.classesAt n) {R : NodeStates → Applied}
    (hR : ctx.ExprThreads n fun v => (R v).exprs) :
    ctx.ExprThreads n fun v => (groups.foldl (ctx.applyGroup k v) (R v)).exprs := by
  induction groups generalizing R with
  | nil => exact hR
  | cons x groups ih =>
    have hcls := hgroups x (by simp)
    refine ih (fun y hy => hgroups y (by simp [hy])) ?_
    apply (hR.insertAll (stateThreads_fireGroup hcls (k := k)) x.1.toList).congr
    intro v hv
    exact (exprs_applyGroup hcls hv (R v)).symm

/-- Rules take each value at a node to what stems from it. -/
theorem threads_applied (hreg : ctx.Regular) (hscope : ∀ c ∈ ctx.classesAt n,
    EquivClass.isInScope c (ctx.program.functionIdOf n') = true) (k : NodeId)
    (l : List PossibleMatch) :
    ∃ T, ctx.Threads n n' T ∧ ∀ v, ctx.Fits n v → (ctx.applied v k n' l).result = some (T v) := by
  let groups := ((ctx.initial n).groupRules l).entries
  have hgroups : ∀ x ∈ groups, x.2.cls ∈ ctx.classesAt n :=
    fun x hx => (isGroup_of_mem_groupRules hreg fits_initial hx).cls
  have hexprs := exprThreads_foldl_applyGroup (k := k) hgroups
    (R := fun v => ⟨v.flatten (ctx.program.functionIdOf n'), [], []⟩)
    (exprThreads_flatten ctx n _)
  refine ⟨_, hexprs.regroup n' hscope, fun v hv => ?_⟩
  have hsame : (v.groupRules l).entries = groups := by
    rw [groupRules_congr hreg hv fits_initial]
  unfold applied applyRules
  rw [hsame]

theorem eraseDups_append_eq_nil {a b : List Match} :
    (a ++ b).eraseDups = [] ↔ a = [] ∧ b = [] := by
  rw [← List.append_eq_nil_iff, List.eq_nil_iff_forall_not_mem, List.eq_nil_iff_forall_not_mem]
  simp only [List.mem_eraseDups]

theorem found_applyGroup_eq_nil {r : Applied} {x : EquivClass × RuleGroup} :
    (ctx.applyGroup k v r x).found = [] ↔
      r.found = [] ∧ ∀ s, v.map.MayBe x.2.cls s → (ctx.fireIn k x.2 s).found = [] := by
  unfold applyGroup
  cases hcurrent : v.map.get? x.2.cls with
  | none => simp [SortedMap.MayBe, hcurrent]
  | some current =>
    simp only [eraseDups_append_eq_nil, found_fireGroup_eq_nil,
      SortedMap.mayBe_of_get? hcurrent]

theorem found_applied_eq_nil : (ctx.applied v k n' l).found = [] ↔
    ∀ x ∈ (v.groupRules l).entries, ∀ s, v.map.MayBe x.2.cls s →
      (ctx.fireIn k x.2 s).found = [] := by
  have fold : ∀ (groups : List (EquivClass × RuleGroup)) (r : Applied),
      (groups.foldl (ctx.applyGroup k v) r).found = [] ↔ r.found = [] ∧
        ∀ x ∈ groups, ∀ s, v.map.MayBe x.2.cls s → (ctx.fireIn k x.2 s).found = [] := by
    intro groups
    induction groups with
    | nil => simp
    | cons x groups ih =>
      intro r
      rw [List.foldl_cons, ih, found_applyGroup_eq_nil, List.forall_mem_cons, and_assoc]
  exact (fold _ _).trans (and_iff_right rfl)

/-- What is kept as each group gives its states to its targets is kept as rules are applied. -/
theorem applyRules_induction {P : ExprStates → Prop} {exprs : ExprStates} (hexprs : P exprs)
    (step : ∀ x ∈ (v.groupRules l).entries, ∀ current, v.map.get? x.2.cls = some current →
      ∀ m, P m → P (x.1.toList.foldl
        (fun m e => m.insert e (ctx.fireGroup k x.2 current).states) m)) :
    P (ctx.applyRules k v l exprs).exprs := by
  refine List.foldlRecOn (motive := fun r : Applied => P r.exprs) _ _ hexprs fun r hr x hx => ?_
  unfold applyGroup
  cases hcurrent : v.map.get? x.2.cls with
  | none => exact hr
  | some current => exact step x hx current hcurrent _ hr

/-- Rules of which none fires change no state, if expressions have those of the classes of their
groups. -/
theorem mayBe_applyRules_of_found (h : (ctx.applied v k n' l).found = []) {exprs : ExprStates}
    (hexprs : ∀ x ∈ (v.groupRules l).entries, ∀ e ∈ x.1, ∀ t,
      exprs.MayBe e t ↔ v.map.MayBe x.2.cls t) (e : Expr) (t : State) :
    (ctx.applyRules k v l exprs).exprs.MayBe e t ↔ exprs.MayBe e t := by
  revert e t
  refine applyRules_induction (P := fun m => ∀ e t, m.MayBe e t ↔ exprs.MayBe e t)
    (fun _ _ => Iff.rfl) ?_
  intro x hx current hcurrent m hm e t
  have hquiet : ∀ s ∈ current, (ctx.fireIn k x.2 s).found = [] := fun s hs =>
    found_applied_eq_nil.1 h x hx s ⟨current, hcurrent, hs⟩
  rw [SortedMap.mayBe_foldl_insert]
  split
  · rename_i he
    rw [mem_fireGroup_of_found hquiet, hexprs x hx e he, SortedMap.mayBe_of_get? hcurrent]
  · exact hm e t

/-- Where no rule fires the value at a node stays as it is. -/
theorem result_applied_of_found (hreg : ctx.Regular) (hv : ctx.Fits n v)
    (h : (ctx.applied v k n l).found = []) : (ctx.applied v k n l).result = some v := by
  have hscope : ∀ c ∈ ctx.classesAt n,
      EquivClass.isInScope c (ctx.program.functionIdOf n) = true := fun _ hc => hreg.home hc
  have hexprs : ∀ e t, (ctx.applyRules k v l (v.flatten (ctx.program.functionIdOf n))).exprs.MayBe
      e t ↔ (v.flatten (ctx.program.functionIdOf n)).MayBe e t := by
    refine mayBe_applyRules_of_found h fun x hx e he t => ?_
    have hgroup := isGroup_of_mem_groupRules hreg hv hx
    exact hv.mayBe_flatten_of_mem hreg hscope hgroup.cls (hgroup.subset e he)
  apply congrArg some
  rw [hv.carried_eq hscope]
  apply fits_regroup.eq_of_mayBe_iff hv
  intro c t
  rw [mayBe_regroup, mem_gather]
  constructor
  · rintro ⟨hc, ⟨e, he, h⟩ | ⟨hnone, -⟩⟩
    · exact (hv.mayBe_flatten_of_mem hreg hscope hc he).1 ((hexprs e t).1 h)
    · obtain ⟨e, he⟩ := hreg.nonempty hc
      obtain ⟨t', ht'⟩ := hv.exists_mayBe hc
      exact absurd ((hexprs e t').2 ((hv.mayBe_flatten_of_mem hreg hscope hc he).2 ht'))
        (hnone e he t')
  · intro h
    have hc := hv.mem_of_mayBe h
    obtain ⟨e, he⟩ := hreg.nonempty hc
    exact ⟨hc, .inl ⟨e, he, (hexprs e t).2 ((hv.mayBe_flatten_of_mem hreg hscope hc he).2 h)⟩⟩

theorem mem_incidents_applyGroup {r : Applied} {x : EquivClass × RuleGroup} :
    i ∈ (ctx.applyGroup k v r x).incidents ↔ i ∈ r.incidents ∨
      ∃ s, v.map.MayBe x.2.cls s ∧ ∃ m ∈ x.2.rules, m.appliesTo s = true ∧
        i ∈ (ctx.fire k x.2.cls s m).incidents := by
  unfold applyGroup
  cases hcurrent : v.map.get? x.2.cls with
  | none => simp [SortedMap.MayBe, hcurrent]
  | some current =>
    simp only [SortedMap.mayBe_of_get? hcurrent, List.mem_append, mem_incidents_fireGroup]

/-- What is raised by rules is what each of them raises in the states of its class. -/
theorem mem_incidents_applied_iff : i ∈ (ctx.applied v k n' l).incidents ↔
    ∃ m ∈ l, ∃ c s, v.classOf m.expr = some c ∧ v.map.MayBe c s ∧ m.appliesTo s = true ∧
      i ∈ (ctx.fire k c s m).incidents := by
  have fold : ∀ (groups : List (EquivClass × RuleGroup)) (r : Applied),
      i ∈ (groups.foldl (ctx.applyGroup k v) r).incidents ↔ i ∈ r.incidents ∨
        ∃ x ∈ groups, ∃ s, v.map.MayBe x.2.cls s ∧ ∃ m ∈ x.2.rules, m.appliesTo s = true ∧
          i ∈ (ctx.fire k x.2.cls s m).incidents := by
    intro groups
    induction groups with
    | nil => simp
    | cons x groups ih =>
      intro r
      rw [List.foldl_cons, ih, mem_incidents_applyGroup]
      simp [or_assoc]
  have hsorts := v.sorts_groupRules l
  unfold applied applyRules
  rw [fold]
  constructor
  · rintro (h | ⟨⟨x, g⟩, hx, s, hs, m, hm, ha, h⟩)
    · cases h
    · obtain ⟨hl, hc, -⟩ := hsorts.sound (SortedMap.mem_entries_iff.1 hx) hm
      exact ⟨m, hl, g.cls, s, hc, hs, ha, h⟩
  · rintro ⟨m, hm, c, s, hc, hs, ha, h⟩
    obtain ⟨g, hg, hmg⟩ := hsorts.complete hm hc
    have hcls : g.cls = c :=
      Option.some.inj ((hsorts.sound hg hmg).2.1.symm.trans hc)
    subst hcls
    exact .inr ⟨_, SortedMap.mem_entries_iff.2 hg, s, hs, m, hmg, ha, h⟩

theorem mem_incidents_applied {f : Finding}
    (h : .finding f ∈ (ctx.applied v k n' l).incidents) :
    f.node = k ∧ ∃ c, f.expr.simplify ∈ c ∧ v.map.MayBe c f.state := by
  obtain ⟨m, -, c, s, hc, hs, -, hf⟩ := mem_incidents_applied_iff.1 h
  obtain ⟨r, rfl⟩ := mem_incidents_fire hf
  exact ⟨rfl, c, (NodeStates.mem_of_classOf hc).1, hs⟩

end Groups

end StatesContext

end Typestate

import Typestate.Proofs.States.Stored

/-!
# Unions along edges

An edge carries the union of two values with the same classes if it carries either of them, and it
raises for the union what it raises for both. What it carries of the union is the union of what it
carries of both, so to tell the states of a class apart loses nothing.

There is one exception. After a copy the states stay as they are copied unless a rule that looks for
leaks fires. If one fires for the first value only, then in the union its class takes the place of
what the second value has for its members. This is the same as long as the class is in scope, but
rules are also tried in classes of other functions, and these may have members in common with those
in scope.
-/
namespace Typestate

namespace NodeStates

theorem sameShape_restrict {v : NodeStates} (h : v.map.Filled) (c : EquivClass) (s t : State) :
    (v.restrict c s).SameShape (v.restrict c t) := by
  have hfilled : ∀ s, (v.restrict c s).map.Filled := fun s =>
    h.insert ⟨s, SortedSet.mem_singleton.2 rfl⟩ c
  refine ⟨fun d => ?_, hfilled s, hfilled t⟩
  simp only [restrict, SortedMap.get?_insert]
  split <;> simp

end NodeStates

namespace StatesContext

open NodeStates

variable {ctx : StatesContext} {k n n' : NodeId} {u v w x y z : NodeStates} {c : EquivClass}
  {l : List PossibleMatch} {e : EdgeId} {t : State}

section Unions

variable (h : u.map.IsUnion v.map w.map)
include h

theorem pass_eq_union : ctx.pass u n = (ctx.pass v n).union (ctx.pass w n) :=
  eq_union (isUnion_regroup (isUnion_flatten h) (isUnion_carried h)) rfl

theorem together_enter : Together (fun x y z => x = y.union z)
    (ctx.enter u k n) (ctx.enter v k n) (ctx.enter w k n) := by
  unfold enter
  cases ctx.program.functionOf n with
  | none => exact .none
  | some callee =>
    cases ctx.program.callAt k with
    | none => exact .none
    | some call =>
      obtain ⟨result, args⟩ := call
      have hrest := isUnion_without h callee.id
      refine .some (eq_union (isUnion_regroup ?_ (isUnion_carried hrest)) rfl)
      exact isUnion_handOver h _ (isUnion_flatten hrest)

theorem isUnion_returnedStates (callee : Function) :
    (ctx.returnedStates u callee).IsUnion (ctx.returnedStates v callee)
      (ctx.returnedStates w callee) := by
  have hdefaults : ∃ t, t ∈ ctx.defaults := ⟨_, mem_defaults.2 rfl⟩
  unfold returnedStates
  cases callee.returned with
  | none => exact SortedSet.isUnion_self hdefaults
  | some e => exact (together_statesOf h).getD hdefaults

theorem together_leave : Together (fun x y z => x = y.union z)
    (ctx.leave u n n' k) (ctx.leave v n n' k) (ctx.leave w n n' k) := by
  unfold leave
  cases ctx.program.functionOf n with
  | none => exact .none
  | some callee =>
    cases ctx.program.callAt k with
    | none => exact .none
    | some call =>
      obtain ⟨result, args⟩ := call
      have hrest := isUnion_without h callee.id
      refine .some (eq_union (isUnion_regroup ?_ (isUnion_carried hrest)) rfl)
      cases result with
      | none => exact isUnion_handOver h _ (isUnion_flatten hrest)
      | some e =>
        apply SortedMap.IsUnion.insert _ (isUnion_returnedStates h callee)
        exact isUnion_handOver h _ (isUnion_flatten hrest)

theorem isUnion_applied (hx : (ctx.applied u k n l).result = some x)
    (hy : (ctx.applied v k n l).result = some y) (hz : (ctx.applied w k n l).result = some z) :
    x.map.IsUnion y.map z.map := by
  obtain rfl := Option.some.inj hx
  obtain rfl := Option.some.inj hy
  obtain rfl := Option.some.inj hz
  exact isUnion_regroup (isUnion_applyRules h (isUnion_flatten h)) (isUnion_carried h)

theorem found_applied_of_isUnion : (ctx.applied u k n l).found = [] ↔
    (ctx.applied v k n l).found = [] ∧ (ctx.applied w k n l).found = [] := by
  simp only [found_applied_eq_nil, ← groupRules_of_isUnion h, ← groupRules_of_isUnion h.symm,
    h.mayBe, or_imp, forall_and]

end Unions

/-- Whether rules look only at classes of a value that are in scope. -/
def LooksInScope (ctx : StatesContext) (n : NodeId) (l : List PossibleMatch) (v : NodeStates) :
    Prop :=
  ∀ m ∈ l, ∀ c, v.classOf m.expr = some c →
    EquivClass.isInScope c (ctx.program.functionIdOf n) = true

theorem looksInScope_of_isUnion (h : u.map.IsUnion v.map w.map) :
    ctx.LooksInScope n l u ↔ ctx.LooksInScope n l v := by
  unfold LooksInScope
  simp only [classOf_of_isUnion h]

/-- Whether the classes at each node are disjoint and have members. -/
structure Partitioned (ctx : StatesContext) : Prop where
  disjoint : ∀ {n : NodeId} {c d : EquivClass} {e : Expr}, c ∈ ctx.classesAt n →
    d ∈ ctx.classesAt n → e ∈ c → e ∈ d → c = d
  nonempty : ∀ {n : NodeId} {c : EquivClass}, c ∈ ctx.classesAt n → ∃ e, e ∈ c

theorem partitioned_of {p : Program} {a : Automaton} {facts : FactsSolution} :
    (StatesContext.of p a facts).Partitioned :=
  ⟨disjoint_classesAt_of, nonempty_classesAt_of⟩

section Quiet

variable (hpart : ctx.Partitioned) (hv : ctx.Shaped n v)
include hpart hv

theorem Shaped.mayBe_flatten_of_mem (hc : c ∈ ctx.classesAt n)
    (hscope : EquivClass.isInScope c (ctx.program.functionIdOf n) = true) {e : Expr} (he : e ∈ c) :
    (v.flatten (ctx.program.functionIdOf n)).MayBe e t ↔ v.map.MayBe c t := by
  rw [mayBe_flatten]
  constructor
  · rintro ⟨d, hed, hd, s, hs, ht⟩
    obtain rfl := hpart.disjoint (hv.scope hs hd) hc hed he
    exact ⟨s, hs, ht⟩
  · intro h
    exact ⟨c, he, hscope, h⟩

variable (hl : ctx.LooksInScope n l v)
include hl

omit hpart in
theorem Shaped.mem_classesAt_of_mem_groupRules {x : EquivClass × RuleGroup}
    (hx : x ∈ (v.groupRules l).entries) : x.2.cls ∈ ctx.classesAt n ∧
      EquivClass.isInScope x.2.cls (ctx.program.functionIdOf n) = true := by
  obtain ⟨m, hm, hc, -, -⟩ := exists_rule_of_mem_groupRules hx
  obtain ⟨s, hs⟩ := (mem_of_classOf hc).2
  have hscope := hl m hm _ hc
  exact ⟨hv.scope hs hscope, hscope⟩

/-- Rules that look at classes in scope leave the other ones at the node in the default state, for
nothing is known of their members. -/
theorem Shaped.mem_gather_applyRules (hc : c ∈ ctx.classesAt n)
    (hscope : EquivClass.isInScope c (ctx.program.functionIdOf n) = false) :
    t ∈ ctx.gather (ctx.applyRules k v l (v.flatten (ctx.program.functionIdOf n))).exprs c ↔
      t = ctx.automaton.default := by
  have hdistinct : ∀ {d e}, d ∈ ctx.classesAt n →
      EquivClass.isInScope d (ctx.program.functionIdOf n) = true → e ∈ d → e ∉ c := by
    intro d e hd hd' hed hec
    obtain rfl := hpart.disjoint hd hc hed hec
    rw [hscope] at hd'
    cases hd'
  have hnone : ∀ e ∈ c, ∀ t, ¬ (ctx.applyRules k v l
      (v.flatten (ctx.program.functionIdOf n))).exprs.MayBe e t := by
    refine applyRules_induction (P := fun m => ∀ e ∈ c, ∀ t, ¬ m.MayBe e t) ?_ ?_
    · intro e he t h
      obtain ⟨d, hed, hd, s, hs, -⟩ := mayBe_flatten.1 h
      exact hdistinct (hv.scope hs hd) hd hed he
    · intro x hx current hcurrent m hm e he t h
      rw [SortedMap.mayBe_foldl_insert] at h
      split at h
      · rename_i hex
        obtain ⟨hcls, hcls'⟩ := hv.mem_classesAt_of_mem_groupRules hl hx
        obtain ⟨-, -, -, -, hsub⟩ := exists_rule_of_mem_groupRules hx
        exact hdistinct hcls hcls' (hsub e hex) he
      · exact hm e he t h
  rw [mem_gather]
  constructor
  · rintro (⟨e, he, h⟩ | ⟨-, h⟩)
    · exact absurd h (hnone e he t)
    · exact h
  · intro h
    exact .inr ⟨hnone, h⟩

theorem Shaped.mayBe_default_applied (hy : (ctx.applied v k n l).result = some y)
    (hc : c ∈ ctx.classesAt n)
    (hscope : EquivClass.isInScope c (ctx.program.functionIdOf n) = false) :
    y.map.MayBe c ctx.automaton.default := by
  obtain rfl := Option.some.inj hy
  exact mayBe_regroup_iff.2 (.inl ⟨hc, (hv.mem_gather_applyRules hpart hl hc hscope).2 rfl⟩)

section Found

variable (h : (ctx.applied v k n l).found = [])
include h

theorem Shaped.mayBe_applyRules_of_found (hc : c ∈ ctx.classesAt n)
    (hscope : EquivClass.isInScope c (ctx.program.functionIdOf n) = true) {e : Expr} (he : e ∈ c) :
    (ctx.applyRules k v l (v.flatten (ctx.program.functionIdOf n))).exprs.MayBe e t ↔
      v.map.MayBe c t := by
  rw [StatesContext.mayBe_applyRules_of_found h, hv.mayBe_flatten_of_mem hpart hc hscope he]
  intro x hx e he t
  obtain ⟨hcls, hcls'⟩ := hv.mem_classesAt_of_mem_groupRules hl hx
  obtain ⟨-, -, -, -, hsub⟩ := exists_rule_of_mem_groupRules hx
  exact hv.mayBe_flatten_of_mem hpart hcls hcls' (hsub e he)

theorem Shaped.mem_gather_of_found (hc : c ∈ ctx.classesAt n)
    (hscope : EquivClass.isInScope c (ctx.program.functionIdOf n) = true) :
    t ∈ ctx.gather (ctx.applyRules k v l (v.flatten (ctx.program.functionIdOf n))).exprs c ↔
      v.map.MayBe c t := by
  obtain ⟨e, he⟩ := hpart.nonempty hc
  rw [mem_gather]
  constructor
  · rintro (⟨e', he', ht⟩ | ⟨hnone, -⟩)
    · exact (hv.mayBe_applyRules_of_found hpart hl h hc hscope he').1 ht
    · obtain ⟨s, hs⟩ := hv.classes hc
      obtain ⟨t', ht'⟩ := hv.exists_mayBe hs
      have hsome := (hv.mayBe_applyRules_of_found hpart hl h hc hscope he).2 ht'
      exact absurd hsome (hnone e he t')
  · intro ht
    exact .inl ⟨e, he, (hv.mayBe_applyRules_of_found hpart hl h hc hscope he).2 ht⟩

/-- Rules that look at classes in scope and never fire leave the states as they are, but that a
class which is not in scope gets the default state at its own node. -/
theorem Shaped.mayBe_applied_of_found (hy : (ctx.applied v k n l).result = some y) :
    y.map.MayBe c t ↔ v.map.MayBe c t ∨ c ∈ ctx.classesAt n ∧
      EquivClass.isInScope c (ctx.program.functionIdOf n) = false ∧ t = ctx.automaton.default := by
  obtain rfl := Option.some.inj hy
  rw [mayBe_regroup_iff]
  cases hscope : EquivClass.isInScope c (ctx.program.functionIdOf n) with
  | false =>
    have hgather : c ∈ ctx.classesAt n → (t ∈ ctx.gather (ctx.applyRules k v l
        (v.flatten (ctx.program.functionIdOf n))).exprs c ↔ t = ctx.automaton.default) :=
      fun hc => hv.mem_gather_applyRules hpart hl hc hscope
    rw [and_congr_right hgather, or_comm]
    simp [SortedMap.MayBe, get?_carried, hscope]
  | true =>
    have hgather : c ∈ ctx.classesAt n → (t ∈ ctx.gather (ctx.applyRules k v l
        (v.flatten (ctx.program.functionIdOf n))).exprs c ↔ v.map.MayBe c t) :=
      fun hc => hv.mem_gather_of_found hpart hl h hc hscope
    have hmem : v.map.MayBe c t → c ∈ ctx.classesAt n := by
      rintro ⟨s, hs, -⟩
      exact hv.scope hs hscope
    rw [and_congr_right hgather, and_iff_right_of_imp hmem]
    simp [SortedMap.MayBe, get?_carried, hscope]

end Found

end Quiet

section Copy

variable {target source : Expr}

theorem shaped_copied (hv : v.map.Filled) : ctx.Shaped n (ctx.copied v n target source) :=
  shaped_regroup fun c s _ hs => hv c s hs

/-- What rules make of a value for which none fires may be left out of a union, if they look at
classes in scope. -/
theorem isUnion_of_found (hpart : ctx.Partitioned) (h : u.map.IsUnion v.map w.map)
    (hv : ctx.Shaped n v) (hw : ctx.Shaped n w) (hl : ctx.LooksInScope n l v)
    (hquiet : (ctx.applied w k n l).found = []) (hx : (ctx.applied u k n l).result = some x)
    (hy : (ctx.applied v k n l).result = some y) : x.map.IsUnion y.map w.map := by
  have hl' : ctx.LooksInScope n l w :=
    (looksInScope_of_isUnion h.symm).1 ((looksInScope_of_isUnion h).2 hl)
  obtain ⟨z, hz⟩ : ∃ z, (ctx.applied w k n l).result = some z := ⟨_, rfl⟩
  have hxyz := isUnion_applied h hx hy hz
  have hmay : ∀ c t, z.map.MayBe c t ↔ w.map.MayBe c t ∨ c ∈ ctx.classesAt n ∧
      EquivClass.isInScope c (ctx.program.functionIdOf n) = false ∧ t = ctx.automaton.default :=
    fun c t => hw.mayBe_applied_of_found hpart hl' hquiet hz
  refine .of_mayBe hxyz.filled hxyz.filled_left h.symm.filled_left (fun c => ?_) fun c t => ?_
  · rw [← hxyz.known, hxyz.symm.known]
    simp only [hmay]
    constructor
    · rintro ⟨t, ht | ⟨hc, -⟩⟩
      · exact ⟨t, ht⟩
      · obtain ⟨s, hs⟩ := hw.classes hc
        exact hw.exists_mayBe hs
    · rintro ⟨t, ht⟩
      exact ⟨t, .inl ht⟩
  · rw [hxyz.mayBe, hmay]
    constructor
    · rintro (ht | ht | ⟨hc, hscope, rfl⟩)
      · exact .inl ht
      · exact .inr ht
      · exact .inl (hv.mayBe_default_applied hpart hl hy hc hscope)
    · rintro (ht | ht)
      · exact .inl ht
      · exact .inr (.inl ht)

theorem node_of_applied (h : (ctx.applied v k n l).result = some x) : x.node = n := by
  obtain rfl := Option.some.inj h
  rfl

/-- Values that rules may change only if one fires: if those for both sides of a union fire alike
what becomes of the union is the union of what becomes of both. -/
theorem eq_union_of_applied (hpart : ctx.Partitioned) (h : u.map.IsUnion v.map w.map)
    (hu : u.node = n) (hv : ctx.Shaped n v) (hw : ctx.Shaped n w)
    (halike : ((ctx.applied v k n l).found = [] ↔ (ctx.applied w k n l).found = []) ∨
      ctx.LooksInScope n l v)
    (hx : (ctx.applied u k n l).found = [] ∧ x = u ∨
      (ctx.applied u k n l).found ≠ [] ∧ (ctx.applied u k n l).result = some x)
    (hy : (ctx.applied v k n l).found = [] ∧ y = v ∨
      (ctx.applied v k n l).found ≠ [] ∧ (ctx.applied v k n l).result = some y)
    (hz : (ctx.applied w k n l).found = [] ∧ z = w ∨
      (ctx.applied w k n l).found ≠ [] ∧ (ctx.applied w k n l).result = some z) :
    x = y.union z := by
  have hfound : (ctx.applied u k n l).found = [] ↔
      (ctx.applied v k n l).found = [] ∧ (ctx.applied w k n l).found = [] :=
    found_applied_of_isUnion h
  rcases hy with ⟨hvfound, rfl⟩ | ⟨hvfound, hy⟩ <;> rcases hz with ⟨hwfound, rfl⟩ | ⟨hwfound, hz⟩
  · obtain ⟨-, rfl⟩ := hx.resolve_right fun hx => hx.1 (hfound.2 ⟨hvfound, hwfound⟩)
    exact eq_union h (hu.trans hv.node.symm)
  · obtain ⟨-, hx⟩ := hx.resolve_left fun hx => hwfound (hfound.1 hx.1).2
    have hl := halike.resolve_left fun hiff => hwfound (hiff.1 hvfound)
    have hl' := (looksInScope_of_isUnion h.symm).1 ((looksInScope_of_isUnion h).2 hl)
    have hunion := isUnion_of_found hpart h.symm hw hv hl' hvfound hx hz
    exact eq_union hunion.symm ((node_of_applied hx).trans hv.node.symm)
  · obtain ⟨-, hx⟩ := hx.resolve_left fun hx => hvfound (hfound.1 hx.1).1
    have hl := halike.resolve_left fun hiff => hvfound (hiff.2 hwfound)
    have hunion := isUnion_of_found hpart h hv hw hl hwfound hx hy
    exact eq_union hunion ((node_of_applied hx).trans (node_of_applied hy).symm)
  · obtain ⟨-, hx⟩ := hx.resolve_left fun hx => hvfound (hfound.1 hx.1).1
    have hunion := isUnion_applied h hx hy hz
    exact eq_union hunion ((node_of_applied hx).trans (node_of_applied hy).symm)

end Copy

/-- Whether, after a copy along an edge, rules that look for leaks fire for both of two values or
for neither, or else look at classes in scope. -/
def LeaksAlike (ctx : StatesContext) (e : EdgeId) (v w : NodeStates) : Prop :=
  ∀ edge guard target source, ctx.program.edges[e]? = some edge → edge.kind = .flow guard →
    (ctx.program.stmtAt edge.source).bind Statement.copy? = some (target, source) →
    ((ctx.transfer v e).found = [] ↔ (ctx.transfer w e).found = []) ∨
      ctx.LooksInScope edge.target (ctx.triedAt e edge.source)
        (ctx.copied v edge.target target source)

section Edge

variable (h : u.map.IsUnion v.map w.map)
include h

theorem together_transfer (hpart : ctx.Partitioned) (e : EdgeId) :
    Together (fun x y z => ctx.LeaksAlike e v w → x = y.union z)
      (ctx.transfer u e).result (ctx.transfer v e).result (ctx.transfer w e).result := by
  cases ctx.conducts e with
  | blocked heq =>
    simp only [heq]
    exact .none
  | root _ _ heq =>
    simp only [heq]
    exact .some fun _ => pass_eq_union h
  | enter _ _ heq =>
    simp only [heq]
    exact (together_enter h).imp fun _ _ _ hunion _ => hunion
  | leave _ _ heq =>
    simp only [heq]
    exact (together_leave h).imp fun _ _ _ hunion _ => hunion
  | @flow edge guard he _ hk heq =>
    simp only [heq]
    cases hcopy : (ctx.program.stmtAt edge.source).bind Statement.copy? with
    | none =>
      simp only [flow_of_copy_eq_none hcopy]
      exact .some fun _ => eq_union (isUnion_applied h rfl rfl rfl) rfl
    | some pair =>
      obtain ⟨target, source⟩ := pair
      obtain ⟨x, hx⟩ := exists_result_flow hcopy u e edge.target
      obtain ⟨y, hy⟩ := exists_result_flow hcopy v e edge.target
      obtain ⟨z, hz⟩ := exists_result_flow hcopy w e edge.target
      rw [hx, hy, hz]
      refine .some fun halike => eq_union_of_applied hpart (isUnion_copied h target source) rfl
        (shaped_copied h.filled_left) (shaped_copied h.symm.filled_left) ?_
        (result_flow_cases hcopy hx) (result_flow_cases hcopy hy) (result_flow_cases hcopy hz)
      have halike := halike edge guard target source he hk hcopy
      rwa [heq, heq, triedAt_of_copy hcopy, found_flow_of_copy hcopy, found_flow_of_copy hcopy]
        at halike

theorem mem_incidents_transfer_of_isUnion (e : EdgeId) {i : Incident} :
    i ∈ (ctx.transfer u e).incidents ↔
      i ∈ (ctx.transfer v e).incidents ∨ i ∈ (ctx.transfer w e).incidents := by
  cases ctx.conducts e with
  | blocked heq | root _ _ heq | enter _ _ heq | leave _ _ heq =>
    simp [heq, Passage.quiet, Passage.blocked]
  | @flow edge guard _ _ _ heq =>
    simp only [heq]
    cases hcopy : (ctx.program.stmtAt edge.source).bind Statement.copy? with
    | none =>
      simp only [flow_of_copy_eq_none hcopy]
      exact incidents_applied_of_isUnion h
    | some pair =>
      simp only [incidents_flow_of_copy hcopy]
      exact incidents_applied_of_isUnion (isUnion_copied h pair.1 pair.2)

end Edge

/-- An edge carries the union of two values with the same classes, of which each has a state, just
if it carries either of them, and raises for it what it raises for both. What it carries is the
union of what it carries of both; only after a copy this takes that rules which look for leaks fire
alike, or look at classes in scope. -/
theorem transfer_union {p : Program} {a : Automaton} {facts : FactsSolution}
    (hctx : ctx = .of p a facts) (h : v.SameShape w) (e : EdgeId) :
    Together (fun x y z => ctx.LeaksAlike e v w → x = y.union z)
      (ctx.transfer (v.union w) e).result (ctx.transfer v e).result (ctx.transfer w e).result ∧
    ∀ i, i ∈ (ctx.transfer (v.union w) e).incidents ↔
      i ∈ (ctx.transfer v e).incidents ∨ i ∈ (ctx.transfer w e).incidents := by
  subst hctx
  exact ⟨together_transfer h.isUnion partitioned_of e,
    fun _ => mem_incidents_transfer_of_isUnion h.isUnion e⟩

end StatesContext

namespace Analysis

open NodeStates

section Gluing

def aloneGlued : EquivClass := .singleton (.var glued)

/-- The local variables of `f` in `gluing`, with `z` in a state. -/
def ownLocals (s : State) : NodeStates :=
  let u : Variable := ⟨"u", some 1, .localVar, .pointer⟩
  let y : Variable := ⟨"y", some 1, .localVar, .pointer⟩
  restrict ⟨12, .tabulate (fun _ => .singleton zeroing.default)
    (.ofList [.singleton (.var u), .singleton (.var y), aloneGlued])⟩ aloneGlued s

theorem sameShape_ownLocals (s t : State) : (ownLocals s).SameShape (ownLocals t) := by
  apply sameShape_restrict
  intro c s hs
  rw [SortedMap.get?_tabulate] at hs
  split at hs
  · exact ⟨zeroing.default, Option.some.inj hs ▸ SortedSet.mem_singleton.2 rfl⟩
  · cases hs

/-- At the end of `f` memory leaks in one of two states of `z`, so it does in their union. -/
theorem transfer_union_gluing : ∃ a t, solve gluing zeroing 100 = .ok a ∧
    (a.context.transfer (ownLocals zeroing.default) 11).found = [] ∧
    (a.context.transfer (ownLocals t) 11).found ≠ [] ∧
    Together (fun x y z => x = y.union z)
      (a.context.transfer ((ownLocals zeroing.default).union (ownLocals t)) 11).result
      (a.context.transfer (ownLocals zeroing.default) 11).result
      (a.context.transfer (ownLocals t) 11).result ∧
    ∀ i, i ∈ (a.context.transfer ((ownLocals zeroing.default).union (ownLocals t)) 11).incidents ↔
      i ∈ (a.context.transfer (ownLocals zeroing.default) 11).incidents ∨
        i ∈ (a.context.transfer (ownLocals t) 11).incidents := by
  let y : Expr := .var ⟨"y", some 1, .localVar, .pointer⟩
  let u : Expr := .var ⟨"u", some 1, .localVar, .pointer⟩
  obtain ⟨a, ha, htest⟩ := exists_eq_ok_of_any (solve gluing zeroing 100)
    (fun a => (a.context.transfer (ownLocals zeroing.default) 11).found.isEmpty &&
      !(a.context.transfer (ownLocals (.named "ptr.unknown")) 11).found.isEmpty &&
      (a.context.triedAt 11 12).all fun m =>
        ((a.context.copied (ownLocals zeroing.default) 4 y u).classOf m.expr).all fun c =>
          EquivClass.isInScope c (some 1)) (by decide +kernel)
  simp only [Bool.and_eq_true, List.isEmpty_iff, Bool.not_eq_true', List.isEmpty_eq_false_iff]
    at htest
  obtain ⟨⟨hquiet, hfired⟩, hscope⟩ := htest
  obtain ⟨facts, -, hctx, -⟩ := solve_eq_ok ha
  have halike : a.context.LeaksAlike 11 (ownLocals zeroing.default)
      (ownLocals (.named "ptr.unknown")) := by
    intro edge guard target source he hk hcopy
    have hprogram : a.context.program = gluing := by
      rw [hctx]
      rfl
    have hedge : gluing.edges[11]? = some ⟨12, 4, .flow .always⟩ := rfl
    have hstmt : (gluing.stmtAt 12).bind Statement.copy? = some (y, u) := by decide
    rw [hprogram, hedge] at he
    obtain rfl := Option.some.inj he
    rw [hprogram, hstmt] at hcopy
    obtain ⟨rfl, rfl⟩ := Prod.mk.inj (Option.some.inj hcopy)
    refine .inr fun m hm c hc => ?_
    have hin := List.all_eq_true.1 hscope m hm
    rw [hc] at hin
    rw [hprogram]
    exact hin
  obtain ⟨hresult, hincidents⟩ := StatesContext.transfer_union hctx
    (sameShape_ownLocals zeroing.default (.named "ptr.unknown")) 11
  exact ⟨a, .named "ptr.unknown", ha, hquiet, hfired,
    hresult.imp fun _ _ _ h => h halike, hincidents⟩

/-- What `f` ends with has two states for the class that `z` shares with `x` of `main`. If memory
leaks in one of them `z` has the states of this class after the edge; in the other one `z` by itself
is zeroed and stays so. In the union of both it has been forgotten that it may be zeroed. -/
theorem transfer_shared_ne_union : ∃ a u c s t x y z, gluing.WellFormed ∧
    solve gluing zeroing 100 = .ok a ∧ a.statesAt 12 = some u ∧
    (u.restrict c s).SameShape (u.restrict c t) ∧ u = (u.restrict c s).union (u.restrict c t) ∧
    (a.context.transfer u 11).result = some x ∧
    (a.context.transfer (u.restrict c s) 11).result = some y ∧
    (a.context.transfer (u.restrict c t) 11).result = some z ∧ x ≠ y.union z := by
  have hwf : gluing.WellFormed := by decide
  let c (u : NodeStates) : EquivClass := (u.classOf (.var glued)).getD ∅
  let v (u : NodeStates) : NodeStates := u.restrict (c u) zeroing.default
  let w (u : NodeStates) : NodeStates := u.restrict (c u) (.named "ptr.unknown")
  obtain ⟨a, ha, htest⟩ := exists_eq_ok_of_any (solve gluing zeroing 100)
    (fun a => (a.statesAt 12).any fun u => u = (v u).union (w u) &&
      (a.context.transfer u 11).result.any fun x =>
        (a.context.transfer (v u) 11).result.any fun y =>
          (a.context.transfer (w u) 11).result.any fun z => x ≠ y.union z) (by decide +kernel)
  simp only [Option.any_eq_true, Bool.and_eq_true, decide_eq_true_eq] at htest
  obtain ⟨u, hu, hunion, x, hx, y, hy, z, hz, hne⟩ := htest
  obtain ⟨facts, -, hctx, hsolve⟩ := solve_eq_ok ha
  have hfilled : u.map.Filled := by
    have hprogram : a.context.program.WellFormed := by
      rw [hctx]
      exact hwf
    intro c s hs
    exact ((StatesContext.preserves_covers hprogram).solve hsolve hu).nonempty hs
  exact ⟨a, u, c u, zeroing.default, .named "ptr.unknown", x, y, z, hwf, ha, hu,
    sameShape_restrict hfilled _ _ _, hunion, hx, hy, hz, hne⟩

end Gluing

end Analysis

end Typestate

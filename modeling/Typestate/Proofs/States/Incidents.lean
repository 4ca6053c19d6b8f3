import Typestate.Proofs.States.PassThrough

/-!
# What rules raise where

A rule is tried in the states of the class that its expression has at the node, so what a list of
rules raises can be told rule by rule and state by state. Of two values of which one has all states
of the other, the larger raises whatever the smaller does, if every class that is looked at along
the edge is one of the node's own. Classes of other functions that travel along are not there from
the start, and to look at one of them may give another answer later.
-/
namespace Typestate

namespace NodeStates

variable {v w : NodeStates} {e : Expr}

/-- Whether two values have the same classes that hold an expression. -/
def AgreeOn (v w : NodeStates) (e : Expr) : Prop :=
  ∀ c, e.simplify ∈ c → ((∃ s, v.map.get? c = some s) ↔ ∃ s, w.map.get? c = some s)

/-- The class of an expression is the first one that holds it, so only these matter. -/
theorem AgreeOn.classOf_eq (h : v.AgreeOn w e) : v.classOf e = w.classOf e := by
  have hkeys : v.map.keys.filter (e.simplify ∈ ·) = w.map.keys.filter (e.simplify ∈ ·) := by
    refine eq_of_mem_iff_of_pairwise (R := fun a b => compare a b = .lt) not_lt_of_lt
      ((List.pairwise_map.2 v.map.ascending).filter _)
      ((List.pairwise_map.2 w.map.ascending).filter _) fun c => ?_
    simp only [List.mem_filter, SortedMap.mem_keys_iff, decide_eq_true_eq]
    exact and_congr_left (h c)
  rw [classOf_eq_find?, classOf_eq_find?, ← List.head?_filter, hkeys, List.head?_filter]

end NodeStates

namespace StatesContext

open NodeStates

variable {ctx : StatesContext} {k n n' : NodeId} {v w u : NodeStates} {c : EquivClass}
  {s : State} {i : Incident} {l : List PossibleMatch}

/-- More states raise no less, if the classes that the rules look at are the same. -/
theorem incidents_applied_of_below (hvw : v.Below w) (hagree : ∀ m ∈ l, v.AgreeOn w m.expr)
    (h : i ∈ (ctx.applied v k n' l).incidents) : i ∈ (ctx.applied w k n' l).incidents := by
  rw [mem_incidents_applied_iff] at h ⊢
  obtain ⟨m, hm, c, s, hc, hs, ha, hi⟩ := h
  exact ⟨m, hm, c, s, (hagree m hm).classOf_eq ▸ hc, hvw c s hs, ha, hi⟩

/-- A value with states for each class at its node. There may be other classes, which travel
along. -/
structure Covers (ctx : StatesContext) (n : NodeId) (v : NodeStates) : Prop where
  classes : ∀ {c}, c ∈ ctx.classesAt n → ∃ s, v.map.get? c = some s
  nonempty : ∀ {c s}, v.map.get? c = some s → ∃ t, t ∈ s

namespace Covers

theorem exists_mayBe (h : ctx.Covers n v) {c : EquivClass} {s : States}
    (hs : v.map.get? c = some s) : ∃ t, v.map.MayBe c t := by
  obtain ⟨t, ht⟩ := h.nonempty hs
  exact ⟨t, s, hs, ht⟩

theorem exists_of_below (h : ctx.Covers n v) (hvw : v.Below w) {c : EquivClass}
    (hc : ∃ s, v.map.get? c = some s) : ∃ s, w.map.get? c = some s := by
  obtain ⟨s, hs⟩ := hc
  obtain ⟨t, ht⟩ := h.exists_mayBe hs
  obtain ⟨s', hs', -⟩ := hvw c t ht
  exact ⟨s', hs'⟩

theorem meet (hv : ctx.Covers n v) (hw : ctx.Covers n w) : ctx.Covers n (ctx.meet v w) where
  classes {c} hc := by
    obtain ⟨s, hs⟩ := hv.classes hc
    obtain ⟨t, ht⟩ := hv.exists_mayBe hs
    obtain ⟨s', hs', -⟩ := mayBe_meet_left (w := w) ht
    exact ⟨s', hs'⟩
  nonempty {c s} hs := by
    have hmay : ∃ t, (ctx.meet v w).map.MayBe c t := by
      unfold StatesContext.meet NodeStates.meet at hs
      rw [SortedMap.get?_merge] at hs
      cases hvc : v.map.get? c with
      | some s₁ => exact (hv.exists_mayBe hvc).imp fun _ ht => mayBe_meet_left ht
      | none =>
        cases hwc : w.map.get? c with
        | some s₂ => exact (hw.exists_mayBe hwc).imp fun _ ht => mayBe_meet_right ht
        | none => simp [hvc, hwc] at hs
    obtain ⟨t, ht⟩ := hmay
    exact ⟨t, (SortedMap.mayBe_of_get? hs).1 ht⟩

end Covers

theorem mayBe_regroup_iff {exprs : ExprStates} {extra : ClassStates} :
    (ctx.regroup n exprs extra).map.MayBe c s ↔
      c ∈ ctx.classesAt n ∧ s ∈ ctx.gather exprs c ∨ extra.MayBe c s := by
  unfold regroup SortedMap.MayBe
  rw [SortedMap.get?_merge, SortedMap.get?_tabulate]
  by_cases hc : c ∈ ctx.classesAt n <;> cases extra.get? c <;>
    simp [hc, SortedSet.mem_union]

theorem exists_get?_regroup {exprs : ExprStates} {extra : ClassStates} :
    (∃ s, (ctx.regroup n exprs extra).map.get? c = some s) ↔
      c ∈ ctx.classesAt n ∨ ∃ s, extra.get? c = some s := by
  unfold regroup
  rw [SortedMap.get?_merge, SortedMap.get?_tabulate]
  by_cases hc : c ∈ ctx.classesAt n <;> cases extra.get? c <;> simp [hc]

/-- What is gathered at a node has states for the classes there, whatever travels along. -/
theorem covers_regroup {exprs : ExprStates} {extra : ClassStates}
    (hextra : ∀ c s, c ∉ ctx.classesAt n → extra.get? c = some s → ∃ t, t ∈ s) :
    ctx.Covers n (ctx.regroup n exprs extra) where
  classes hc := exists_get?_regroup.2 (.inl hc)
  nonempty {c s} hs := by
    have hmay : ∃ t, (ctx.regroup n exprs extra).map.MayBe c t := by
      by_cases hc : c ∈ ctx.classesAt n
      · obtain ⟨t, ht⟩ : ∃ t, t ∈ ctx.gather exprs c := exists_mem_gather
        exact ⟨t, mayBe_regroup_iff.2 (.inl ⟨hc, ht⟩)⟩
      · obtain ⟨s', hs'⟩ := (exists_get?_regroup.1 ⟨s, hs⟩).resolve_left hc
        obtain ⟨t, ht⟩ := hextra c s' hc hs'
        exact ⟨t, mayBe_regroup_iff.2 (.inr ⟨s', hs', ht⟩)⟩
    obtain ⟨t, ht⟩ := hmay
    exact ⟨t, (SortedMap.mayBe_of_get? hs).1 ht⟩

theorem preserves_covers (hwf : ctx.program.WellFormed) :
    ctx.problem.Preserves ctx.Covers where
  seed n _ := ⟨fun hc => fits_initial.get?_of_mem hc, fits_initial.nonempty⟩
  transfer {n v x u} hv hx hu := by
    obtain ⟨edge, he, rfl, htarget⟩ := Program.mem_successors.1 hx
    obtain ⟨exprs, w, hcarries, rfl⟩ := transfer_eq_regroup hwf he hu
    rw [← htarget]
    refine covers_regroup fun c s hc hs => ?_
    rw [get?_carried] at hs
    split at hs
    · cases hs
    · exact hv.nonempty ((hcarries.known c s hs).resolve_left hc)
  meet hv hw := hv.meet hw

section Copy

variable {source target : Expr}

/-- A class has no fewer states where expressions have no fewer, if those that have any are the
same: otherwise a class might have the default state only as long as nothing is known of it. -/
theorem mem_gather_of_le {exprs exprs' : ExprStates}
    (hle : ∀ e t, exprs.MayBe e t → exprs'.MayBe e t)
    (hknown : ∀ e t', exprs'.MayBe e t' → ∃ t, exprs.MayBe e t)
    (h : s ∈ ctx.gather exprs c) : s ∈ ctx.gather exprs' c := by
  rw [mem_gather] at h ⊢
  rcases h with ⟨e, he, h⟩ | ⟨hnone, hs⟩
  · exact .inl ⟨e, he, hle e s h⟩
  · refine .inr ⟨fun e he t' ht' => ?_, hs⟩
    obtain ⟨t, ht⟩ := hknown e t' ht'
    exact hnone e he t ht

theorem Covers.mem_statesOf_of_below (hv : ctx.Covers n v) (hvw : v.Below w)
    (hagree : v.AgreeOn w source) : (∃ t, t ∈ (v.statesOf source).getD ctx.defaults) ∧
      ∀ t ∈ (v.statesOf source).getD ctx.defaults, t ∈ (w.statesOf source).getD ctx.defaults := by
  rw [statesOf_eq_bind, statesOf_eq_bind, ← hagree.classOf_eq]
  cases hc : v.classOf source with
  | none => exact ⟨⟨_, mem_defaults.2 rfl⟩, fun _ ht => ht⟩
  | some c =>
    obtain ⟨s, hs⟩ := (mem_of_classOf hc).2
    rw [Option.bind_some, Option.bind_some, hs, Option.getD_some]
    refine ⟨hv.nonempty hs, fun t ht => ?_⟩
    obtain ⟨s', hs', ht'⟩ := hvw c t ⟨s, hs, ht⟩
    rw [hs', Option.getD_some]
    exact ht'

/-- A copy of a value with more states has more states, if the class of the source is the same and
so are the classes in scope at the target. -/
theorem Covers.copied_below (hv : ctx.Covers n v) (hvw : v.Below w)
    (hsource : v.AgreeOn w source)
    (hscope : ∀ c s, w.map.get? c = some s →
      EquivClass.isInScope c (ctx.program.functionIdOf n') = true → ∃ s', v.map.get? c = some s') :
    (ctx.copied v n' target source).Below (ctx.copied w n' target source) := by
  obtain ⟨⟨t₀, ht₀⟩, hstates⟩ := hv.mem_statesOf_of_below hvw hsource
  intro c t ht
  unfold copied at ht ⊢
  rw [mayBe_regroup_iff] at ht ⊢
  rcases ht with ⟨hc, ht⟩ | ⟨s, hs, ht⟩
  · refine .inl ⟨hc, mem_gather_of_le (fun e t h => ?_) (fun e t' h => ?_) ht⟩ <;>
      simp only [SortedMap.mayBe_insert] at h ⊢ <;> split at h
    · rename_i he
      rw [if_pos he]
      exact hstates t h
    · rename_i he
      rw [if_neg he, mayBe_flatten]
      obtain ⟨d, hed, hd, h⟩ := mayBe_flatten.1 h
      exact ⟨d, hed, hd, hvw d t h⟩
    · rename_i he
      exact ⟨t₀, by rwa [if_pos he]⟩
    · rename_i he
      obtain ⟨d, hed, hd, s, hs, -⟩ := mayBe_flatten.1 h
      obtain ⟨s', hs'⟩ := hscope d s hs hd
      obtain ⟨t, ht⟩ := hv.exists_mayBe hs'
      exact ⟨t, by rw [if_neg he, mayBe_flatten]; exact ⟨d, hed, hd, ht⟩⟩
  · rw [get?_carried] at hs
    split at hs
    · cases hs
    · rename_i hc
      obtain ⟨s', hs', ht'⟩ := hvw c t ⟨s, hs, ht⟩
      exact .inr ⟨s', by rw [get?_carried, if_neg hc]; exact hs', ht'⟩

theorem exists_get?_copied : (∃ s, (ctx.copied v n' target source).map.get? c = some s) ↔
    c ∈ ctx.classesAt n' ∨
      EquivClass.isInScope c (ctx.program.functionIdOf n') = false ∧
        ∃ s, v.map.get? c = some s := by
  unfold copied
  rw [exists_get?_regroup, get?_carried]
  cases EquivClass.isInScope c (ctx.program.functionIdOf n') <;> simp

end Copy

/-- The rules that are tried along an edge out of a node: after a copy those that look for leaks. -/
def triedAt (ctx : StatesContext) (e : EdgeId) (n : NodeId) : List PossibleMatch :=
  match (ctx.program.stmtAt n).bind Statement.copy? with
  | none => ctx.possibleAt e
  | some _ => (ctx.possibleAt e).filter (·.isLeakRule)

/-- Whether it matters along an edge inside a function that a class has states: a rule that is
tried speaks of a member, or a copy takes the states of one, or it hands the class on to the
target. -/
def looksAt (ctx : StatesContext) (e : EdgeId) (edge : Edge) (c : EquivClass) : Bool :=
  (ctx.triedAt e edge.source).any (fun m => m.expr.simplify ∈ c) ||
    ((ctx.program.stmtAt edge.source).bind Statement.copy?).any fun (_, source) =>
      source.simplify ∈ c || EquivClass.isInScope c (ctx.program.functionIdOf edge.target)

/-- Whether the classes that an edge inside a function looks at in a value are those of its
source. -/
def LooksAtOwn (ctx : StatesContext) (e : EdgeId) (edge : Edge) (v : NodeStates) : Prop :=
  ∀ guard, edge.kind = .flow guard → ctx.isFeasible e = true → ∀ c s, v.map.get? c = some s →
    ctx.looksAt e edge c = true → c ∈ ctx.classesAt edge.source

section Edge

variable {e : EdgeId} {edge : Edge}

theorem triedAt_of_copy_eq_none (h : (ctx.program.stmtAt n).bind Statement.copy? = none) :
    ctx.triedAt e n = ctx.possibleAt e := by
  rw [triedAt, h]

theorem triedAt_of_copy {x : Expr × Expr}
    (h : (ctx.program.stmtAt n).bind Statement.copy? = some x) :
    ctx.triedAt e n = (ctx.possibleAt e).filter (·.isLeakRule) := by
  rw [triedAt, h]

theorem looksAt_of_mem_triedAt {m : PossibleMatch} (hm : m ∈ ctx.triedAt e edge.source)
    (hc : m.expr.simplify ∈ c) : ctx.looksAt e edge c = true := by
  have hany : (ctx.triedAt e edge.source).any (fun m => m.expr.simplify ∈ c) = true :=
    List.any_eq_true.2 ⟨m, hm, decide_eq_true hc⟩
  rw [looksAt, hany, Bool.true_or]

theorem looksAt_of_copy {target source : Expr}
    (h : (ctx.program.stmtAt edge.source).bind Statement.copy? = some (target, source))
    (hc : source.simplify ∈ c ∨
      EquivClass.isInScope c (ctx.program.functionIdOf edge.target) = true) :
    ctx.looksAt e edge c = true := by
  rw [looksAt, h]
  simp [hc]

/-- Where no class travels along, nothing else than the classes at the node is looked at. -/
theorem Fits.looksAtOwn (hv : ctx.Fits edge.source v) : ctx.LooksAtOwn e edge v :=
  fun _ _ _ c s hs _ => (hv.keys c).1 ⟨s, hs⟩

/-- Two values of which one has all states of the other agree on an expression if the classes that
hold it are those at the node. -/
theorem Covers.agreeOn (hv : ctx.Covers n v) (hvw : v.Below w) {x : Expr}
    (hown : ∀ c s, x.simplify ∈ c → w.map.get? c = some s → c ∈ ctx.classesAt n) :
    v.AgreeOn w x := by
  intro c hc
  refine ⟨hv.exists_of_below hvw, ?_⟩
  rintro ⟨s, hs⟩
  exact hv.classes (hown c s hc hs)

/-- A value with more states raises no less along an edge that looks at classes of its source
only. -/
theorem incidents_transfer_of_below (he : ctx.program.edges[e]? = some edge)
    (hv : ctx.Covers edge.source v) (hvw : v.Below w) (hown : ctx.LooksAtOwn e edge w)
    (h : i ∈ (ctx.transfer v e).incidents) : i ∈ (ctx.transfer w e).incidents := by
  cases ctx.conducts e with
  | blocked heq | root _ _ heq | enter _ _ heq | leave _ _ heq =>
    rw [heq] at h
    cases h
  | flow he' hf hk heq =>
    obtain rfl := Option.some.inj (he.symm.trans he')
    have hown := hown _ hk hf
    rw [heq] at h ⊢
    cases hcopy : (ctx.program.stmtAt edge.source).bind Statement.copy? with
    | none =>
      rw [flow_of_copy_eq_none hcopy] at h ⊢
      refine incidents_applied_of_below hvw (fun m hm => ?_) h
      rw [← triedAt_of_copy_eq_none hcopy] at hm
      exact hv.agreeOn hvw fun c s hc hs => hown c s hs (looksAt_of_mem_triedAt hm hc)
    | some pair =>
      obtain ⟨target, source⟩ := pair
      rw [incidents_flow_of_copy hcopy] at h ⊢
      have hsource : v.AgreeOn w source :=
        hv.agreeOn hvw fun c s hc hs => hown c s hs (looksAt_of_copy hcopy (.inl hc))
      have hscope : ∀ c s, w.map.get? c = some s →
          EquivClass.isInScope c (ctx.program.functionIdOf edge.target) = true →
          ∃ s', v.map.get? c = some s' :=
        fun c s hs hc => hv.classes (hown c s hs (looksAt_of_copy hcopy (.inr hc)))
      refine incidents_applied_of_below (hv.copied_below hvw hsource hscope)
        (fun m hm c hc => ?_) h
      rw [← triedAt_of_copy hcopy] at hm
      rw [exists_get?_copied, exists_get?_copied]
      refine or_congr_right (and_congr_right fun _ => ?_)
      exact hv.agreeOn hvw (fun c s hc hs => hown c s hs (looksAt_of_mem_triedAt hm hc)) c hc

end Edge

end StatesContext

end Typestate

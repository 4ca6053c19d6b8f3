import Typestate.Proofs.Analysis
import Typestate.Proofs.Calls
import Typestate.Proofs.Program
import Typestate.Proofs.States.Replay

/-!
# A caller's states during a call

A class of the caller travels through the callees as it is and comes back into the class that
it left. At the return site a class that did not travel is in the default state. So an
expression that no callee sees has after a call the states it had before, if the callee is
entered by that call alone.
-/
namespace Typestate

namespace NodeStates

variable {v : NodeStates} {scope : Option FunctionId} {c : EquivClass}

theorem get?_carried : (v.carried scope).get? c =
    if EquivClass.isInScope c scope then none else v.map.get? c := by
  refine Option.ext fun s => ?_
  unfold carried
  rw [SortedMap.get?_filter]
  cases EquivClass.isInScope c scope <;> simp

theorem get?_without {f : FunctionId} : (v.without f).map.get? c =
    if EquivClass.owner c = some f then none else v.map.get? c := by
  refine Option.ext fun s => ?_
  unfold without
  rw [SortedMap.get?_filter]
  by_cases h : EquivClass.owner c = some f <;> simp [h]

theorem get?_handOver {pairs : List (Expr × Expr)} {exprs : ExprStates} {e : Expr}
    (h : ∀ x ∈ pairs, x.1 ≠ e) : (v.handOver pairs exprs).get? e = exprs.get? e := by
  unfold handOver
  induction pairs generalizing exprs with
  | nil => rfl
  | cons x pairs ih =>
    rw [List.foldl_cons, ih fun y hy => h y (by simp [hy])]
    have hx : e ≠ x.1 := (h x (by simp)).symm
    obtain ⟨target, source⟩ := x
    dsimp only
    split
    · rw [SortedMap.get?_insert, if_neg hx]
    · rfl

theorem statesOf_eq {e : Expr} {c : EquivClass} (he : e.simplify ∈ c)
    (honly : ∀ d s, v.map.get? d = some s → e.simplify ∈ d → d = c) :
    v.statesOf e = v.map.get? c := by
  rw [statesOf_eq_bind, classOf_eq_find?]
  cases hx : v.map.keys.find? (e.simplify ∈ ·) with
  | none =>
    rw [Option.bind_none, eq_comm, Option.eq_none_iff_forall_ne_some]
    intro s hs
    exact List.find?_eq_none.1 hx c (SortedMap.mem_keys_iff.2 ⟨s, hs⟩) (by simpa using he)
  | some d =>
    obtain ⟨s, hs⟩ := SortedMap.mem_keys_iff.1 (List.mem_of_find?_eq_some hx)
    rw [Option.bind_some, honly d s hs (by simpa using List.find?_some hx)]

end NodeStates

theorem Program.WellFormed.functionIdOf_eq {p : Program} (h : p.WellFormed) {n : NodeId}
    {g : Function} (hg : p.functionOf n = some g) : p.functionIdOf n = some g.id := by
  obtain ⟨i, hi, hg⟩ := Option.bind_eq_some_iff.1 hg
  rw [hi, (h.functions i g hg).1]

namespace StatesContext

variable {ctx : StatesContext} {n : NodeId} {c : EquivClass} {v w u : NodeStates} {t : State}

theorem get?_regroup_of_mem {exprs : ExprStates} {extra : ClassStates}
    (hc : c ∈ ctx.classesAt n) (hextra : extra.get? c = none) :
    (ctx.regroup n exprs extra).map.get? c = some (ctx.gather exprs c) := by
  unfold regroup
  rw [SortedMap.get?_merge, SortedMap.get?_tabulate, if_pos hc, hextra]

theorem get?_regroup_of_not_mem {exprs : ExprStates} {extra : ClassStates}
    (hc : c ∉ ctx.classesAt n) : (ctx.regroup n exprs extra).map.get? c = extra.get? c := by
  unfold regroup
  rw [SortedMap.get?_merge, SortedMap.get?_tabulate, if_neg hc]
  cases extra.get? c <;> rfl

/-- What an edge does to the classes that have no place at its target. -/
structure Carries (ctx : StatesContext) (edge : Edge) (v w : NodeStates) : Prop where
  /-- Every class comes from the source, unless it has a place at the target. -/
  known : ∀ c s, w.map.get? c = some s → c ∈ ctx.classesAt edge.target ∨ v.map.get? c = some s
  /-- A class of a further function stays as it is. -/
  kept : ∀ c, c ∉ ctx.classesAt edge.target →
    EquivClass.isInScope c (ctx.program.functionIdOf edge.target) = false →
    ((∃ call, edge.kind = .leave call) →
      EquivClass.owner c ≠ ctx.program.functionIdOf edge.source) →
    w.map.get? c = v.map.get? c

theorem carries_self (ctx : StatesContext) (edge : Edge) (v : NodeStates) : ctx.Carries edge v v :=
  ⟨fun _ _ h => .inr h, fun _ _ _ _ => rfl⟩

theorem carries_copied (ctx : StatesContext) (edge : Edge) (v : NodeStates)
    (target source : Expr) : ctx.Carries edge v (ctx.copied v edge.target target source) where
  known c s h := by
    by_cases hc : c ∈ ctx.classesAt edge.target
    · exact .inl hc
    · unfold copied at h
      rw [get?_regroup_of_not_mem hc, NodeStates.get?_carried] at h
      split at h
      · cases h
      · exact .inr h
  kept c hc hscope _ := by
    unfold copied
    rw [get?_regroup_of_not_mem hc, NodeStates.get?_carried, hscope]
    rfl

theorem carries_without {edge : Edge} {f : FunctionId} (v : NodeStates)
    (hf : ctx.program.functionIdOf edge.target = some f ∨
      (∃ call, edge.kind = .leave call) ∧ ctx.program.functionIdOf edge.source = some f) :
    ctx.Carries edge v (v.without f) where
  known c s h := by
    rw [NodeStates.get?_without] at h
    split at h
    · cases h
    · exact .inr h
  kept c _ hscope hsource := by
    rw [NodeStates.get?_without, if_neg]
    intro howner
    rcases hf with htarget | ⟨hleave, hf⟩
    · simp [EquivClass.isInScope, howner, htarget] at hscope
    · exact hsource hleave (howner.trans hf.symm)

/-- What an edge carries is gathered at its target, next to classes carried along. -/
theorem transfer_eq_regroup (hwf : ctx.program.WellFormed) {e : EdgeId} {edge : Edge}
    (he : ctx.program.edges[e]? = some edge) (h : (ctx.transfer v e).result = some u) :
    ∃ exprs w, ctx.Carries edge v w ∧
      u = ctx.regroup edge.target exprs (w.carried (ctx.program.functionIdOf edge.target)) := by
  cases ctx.conducts e with
  | blocked heq =>
    rw [heq] at h
    cases h
  | root he' hk heq =>
    obtain rfl := Option.some.inj (he.symm.trans he')
    rw [heq] at h
    exact ⟨_, v, ctx.carries_self edge v, (Option.some.inj h).symm⟩
  | enter he' hk heq =>
    obtain rfl := Option.some.inj (he.symm.trans he')
    simp only [heq, Passage.quiet, enter, Option.bind_eq_bind, Option.bind_eq_some_iff] at h
    obtain ⟨callee, hcallee, ⟨result, args⟩, hcall, h⟩ := h
    have hid := hwf.functionIdOf_eq hcallee
    rw [hid]
    exact ⟨_, v.without callee.id, carries_without v (.inl hid), (Option.some.inj h).symm⟩
  | leave he' hk heq =>
    obtain rfl := Option.some.inj (he.symm.trans he')
    simp only [heq, Passage.quiet, leave, Option.bind_eq_bind, Option.bind_eq_some_iff] at h
    obtain ⟨callee, hcallee, ⟨result, args⟩, hcall, h⟩ := h
    refine ⟨_, v.without callee.id, ?_, (Option.some.inj h).symm⟩
    exact carries_without v (.inr ⟨⟨_, hk⟩, hwf.functionIdOf_eq hcallee⟩)
  | flow he' _ _ heq =>
    obtain rfl := Option.some.inj (he.symm.trans he')
    rw [heq] at h
    cases hcopy : (ctx.program.stmtAt edge.source).bind Statement.copy? with
    | none =>
      rw [flow_of_copy_eq_none hcopy] at h
      exact ⟨_, v, ctx.carries_self edge v, (Option.some.inj h).symm⟩
    | some pair =>
      rcases result_flow_cases hcopy h with ⟨-, h⟩ | ⟨-, h⟩
      · exact ⟨_, v, ctx.carries_self edge v, h⟩
      · exact ⟨_, _, ctx.carries_copied edge v _ _, (Option.some.inj h).symm⟩

theorem get?_handedBack_of_ne {scope : Option FunctionId} {callee : Function}
    {result : Option Expr} {args : List Expr} {x : Expr} (hargs : ∀ a ∈ args, a.simplify ≠ x)
    (hresult : ∀ r, result = some r → r.simplify ≠ x) :
    (ctx.handedBack v scope callee result args).get? x =
      ((v.without callee.id).flatten scope).get? x := by
  have hpairs : ∀ y ∈ (args.map Expr.simplify).zip callee.paramExprs, y.1 ≠ x := by
    intro y hy
    obtain ⟨a, ha, hay⟩ := List.mem_map.1 (List.of_mem_zip hy).1
    exact hay ▸ hargs a ha
  have hother : result.map Expr.simplify ≠ some x := by
    intro hr
    obtain ⟨r, hr, hx⟩ := Option.map_eq_some_iff.1 hr
    exact hresult r hr hx
  rw [get?_handedBack, if_neg hother]
  exact NodeStates.get?_handOver hpairs

/-- An expression that is no argument and no result of a call has at the return site the states
it comes back with. -/
theorem mayBe_leave {e : EdgeId} {edge : Edge} (he : ctx.program.edges[e]? = some edge)
    {call : NodeId} (hk : edge.kind = .leave call) {x : Expr}
    (hargs : ∀ result args, ctx.program.callAt call = some (result, args) →
      (∀ a ∈ args, a.simplify ≠ x) ∧ ∀ r, result = some r → r.simplify ≠ x)
    (hx : .singleton x ∈ ctx.classesAt edge.target)
    (hscope : EquivClass.isInScope (.singleton x) (ctx.program.functionIdOf edge.target) = true)
    (howner : ∀ g, ctx.program.functionOf edge.source = some g →
      EquivClass.owner (.singleton x) ≠ some g.id)
    (honly : ∀ d s, v.map.get? d = some s → x ∈ d → d = .singleton x)
    (hknown : ∃ t, v.map.MayBe (.singleton x) t) (h : (ctx.transfer v e).result = some u) :
    u.map.MayBe (.singleton x) t ↔ v.map.MayBe (.singleton x) t := by
  obtain ⟨callee, result, args, hcallee, hcall, rfl⟩ := exists_of_leave he hk h
  obtain ⟨hargs, hresult⟩ := hargs result args hcall
  have hcarried : ((v.without callee.id).carried
      (ctx.program.functionIdOf edge.target)).get? (.singleton x) = none := by
    rw [NodeStates.get?_carried, if_pos hscope]
  have hrest : (v.without callee.id).map.get? (.singleton x) = v.map.get? (.singleton x) := by
    rw [NodeStates.get?_without, if_neg (howner callee hcallee)]
  have hflat : ∀ t, ((v.without callee.id).flatten
      (ctx.program.functionIdOf edge.target)).MayBe x t ↔ v.map.MayBe (.singleton x) t := by
    intro t
    rw [NodeStates.mayBe_flatten]
    constructor
    · rintro ⟨c, hxc, -, s, hs, ht⟩
      have hvs : v.map.get? c = some s := by
        rw [NodeStates.get?_without] at hs
        split at hs
        · cases hs
        · exact hs
      exact honly c s hvs hxc ▸ ⟨s, hvs, ht⟩
    · rintro ⟨s, hs, ht⟩
      exact ⟨_, SortedSet.mem_singleton.2 rfl, hscope, s, hrest.trans hs, ht⟩
  have hgather : ∀ exprs : ExprStates, exprs.get? x = ((v.without callee.id).flatten
      (ctx.program.functionIdOf edge.target)).get? x →
      (t ∈ ctx.gather exprs (.singleton x) ↔ v.map.MayBe (.singleton x) t) := by
    intro exprs hexprs
    have hmay : ∀ t, exprs.MayBe x t ↔ v.map.MayBe (.singleton x) t := by
      intro t
      rw [← hflat, SortedMap.MayBe, hexprs, SortedMap.MayBe]
    obtain ⟨t', ht'⟩ := hknown
    rw [mem_gather]
    constructor
    · rintro (⟨e, he, ht⟩ | ⟨hnone, -⟩)
      · exact (hmay t).1 (SortedSet.mem_singleton.1 he ▸ ht)
      · exact absurd ((hmay t').2 ht') (hnone x (SortedSet.mem_singleton.2 rfl) t')
    · exact fun ht => .inl ⟨x, SortedSet.mem_singleton.2 rfl, (hmay t).2 ht⟩
  rw [SortedMap.mayBe_of_get? (get?_regroup_of_mem hx hcarried)]
  exact hgather _ (get?_handedBack_of_ne hargs hresult)

/-- An expression of a function that is tracked by itself: where the function is reached it has
a class of its own, and elsewhere it is in no class. -/
structure TracksAlone (ctx : StatesContext) (f : FunctionId) (x : Expr) : Prop where
  mem : ∀ n, ctx.program.functionIdOf n = some f → (ctx.facts.value n).isSome →
    .singleton x ∈ ctx.classesAt n
  only : ∀ n c, c ∈ ctx.classesAt n → x ∈ c →
    c = .singleton x ∧ ctx.program.functionIdOf n = some f

/-- Whether a node is in a function that calls lead to from another. -/
def Within (ctx : StatesContext) (g : FunctionId) (n : NodeId) : Prop :=
  ∃ h, ctx.program.functionIdOf n = some h ∧ ctx.program.LeadsTo g h

/-- How a variable of a function fares in a solution with regard to a function it calls: the
variable is tracked by itself, no call gives it to the callee or gets it from there, and only
these calls lead into the callee and the functions behind it. -/
structure RidesThrough (ctx : StatesContext) (sol : StatesSolution) (f g : FunctionId)
    (y : Variable) : Prop where
  owner : y.owner = some f
  alone : ctx.TracksAlone f (.var y)
  unpassed : ∀ c result args, ctx.program.CallsAt f g c →
    ctx.program.callAt c = some (result, args) →
    (∀ a ∈ args, a.simplify ≠ .var y) ∧ ∀ r, result = some r → r.simplify ≠ .var y
  entered : ∀ edge ∈ ctx.program.edges, (sol.value edge.source).isSome →
    ctx.Within g edge.target → ctx.Within g edge.source ∨
      edge.kind = .enter ∧ ctx.program.CallsAt f g edge.source

def AtCalls (ctx : StatesContext) (sol : StatesSolution) (f g : FunctionId) (y : Variable)
    (t : State) : Prop :=
  ∃ c w, ctx.program.CallsAt f g c ∧ sol.value c = some w ∧ w.map.MayBe (.singleton (.var y)) t

/-- What is known of a variable of `f` at a node while it rides through `g`. -/
structure Rides (ctx : StatesContext) (sol : StatesSolution) (f g : FunctionId) (y : Variable)
    (n : NodeId) (v : NodeStates) : Prop where
  node : v.node = n
  only : ∀ c s, v.map.get? c = some s → .var y ∈ c → c = .singleton (.var y)
  known : ctx.program.functionIdOf n = some f ∨ ctx.Within g n →
    ∃ t, v.map.MayBe (.singleton (.var y)) t
  bounded : ctx.Within g n ∨ ctx.program.ReturnsFrom f g n → ∀ t,
    v.map.MayBe (.singleton (.var y)) t → ctx.AtCalls sol f g y t

variable {sol : StatesSolution} {f g : FunctionId} {y : Variable}

theorem owner_singleton (hy : y.owner = some f) :
    EquivClass.owner (.singleton (.var y)) = some f := by
  simp [EquivClass.owner, SortedSet.singleton, Expr.owner, Expr.vars, Expr.subexprs,
    Expr.asVariable, hy]

theorem isInScope_singleton (hy : y.owner = some f) {scope : Option FunctionId} :
    EquivClass.isInScope (.singleton (.var y)) scope = true ↔ scope = some f := by
  simp [EquivClass.isInScope, owner_singleton hy, eq_comm]

namespace RidesThrough

theorem rides_initial (h : ctx.RidesThrough sol f g y) {n : NodeId}
    (hn : ctx.program.functionIdOf n = none) : ctx.Rides sol f g y n (ctx.initial n) := by
  refine ⟨rfl, fun c s hs hc => ?_, ?_, ?_⟩
  · unfold initial at hs
    rw [SortedMap.get?_tabulate] at hs
    split at hs
    · rename_i hcn
      exact (h.alone.only n c hcn hc).1
    · cases hs
  · rintro (hf | ⟨_, hf, -⟩) <;> cases hn.symm.trans hf
  · rintro (⟨_, hf, -⟩ | ⟨hf, -⟩) <;> cases hn.symm.trans hf

theorem rides_meet {n : NodeId} (hv : ctx.Rides sol f g y n v)
    (hw : ctx.Rides sol f g y n w) : ctx.Rides sol f g y n (ctx.meet v w) := by
  refine ⟨hv.node, fun c s hs hc => ?_, fun hn => ?_, fun hn t ht => ?_⟩
  · unfold meet NodeStates.meet at hs
    rw [SortedMap.get?_merge] at hs
    cases hvc : v.map.get? c with
    | some s₁ => exact hv.only c s₁ hvc hc
    | none =>
      cases hwc : w.map.get? c with
      | some s₂ => exact hw.only c s₂ hwc hc
      | none =>
        rw [hvc, hwc] at hs
        cases hs
  · obtain ⟨t, ht⟩ := hv.known hn
    exact ⟨t, NodeStates.mayBe_meet_left ht⟩
  · have hknown : ctx.program.functionIdOf n = some f ∨ ctx.Within g n := hn.symm.imp_left (·.1)
    obtain ⟨_, s₁, hs₁, -⟩ := hv.known hknown
    obtain ⟨_, s₂, hs₂, -⟩ := hw.known hknown
    have hmeet : (ctx.meet v w).map.get? (.singleton (.var y)) = some (s₁.union s₂) := by
      unfold meet NodeStates.meet
      rw [SortedMap.get?_merge, hs₁, hs₂]
    rcases SortedSet.mem_union.1 ((SortedMap.mayBe_of_get? hmeet).1 ht) with ht | ht
    · exact hv.bounded hn t ⟨s₁, hs₁, ht⟩
    · exact hw.bounded hn t ⟨s₂, hs₂, ht⟩

theorem get?_transfer (h : ctx.RidesThrough sol f g y) (hwf : ctx.program.WellFormed)
    (hother : ¬ ctx.program.LeadsTo g f) {e : EdgeId} {edge : Edge}
    (he : ctx.program.edges[e]? = some edge) (hn : ctx.Within g edge.target)
    (hsource : ctx.Within g edge.source ∨ edge.kind = .enter)
    (hu : (ctx.transfer v e).result = some u) :
    u.map.get? (.singleton (.var y)) = v.map.get? (.singleton (.var y)) := by
  have hne : ∀ m, ctx.Within g m → ctx.program.functionIdOf m ≠ some f := by
    rintro m ⟨k, hm, hk⟩ hf
    rw [hm] at hf
    exact hother (Option.some.inj hf ▸ hk)
  have hplace : .singleton (.var y) ∉ ctx.classesAt edge.target := fun hc =>
    hne _ hn (h.alone.only _ _ hc (SortedSet.mem_singleton.2 rfl)).2
  have hscope : EquivClass.isInScope (.singleton (.var y))
      (ctx.program.functionIdOf edge.target) = false := by
    rw [Bool.eq_false_iff]
    exact fun hs => hne _ hn ((isInScope_singleton h.owner).1 hs)
  obtain ⟨exprs, w, hcarries, rfl⟩ := transfer_eq_regroup hwf he hu
  rw [get?_regroup_of_not_mem hplace, NodeStates.get?_carried, hscope]
  refine hcarries.kept _ hplace hscope ?_
  rintro ⟨call, hk⟩
  rcases hsource with hin | hk'
  · rw [owner_singleton h.owner]
    exact (hne _ hin).symm
  · rw [hk] at hk'
    cases hk'

theorem mayBe_return (h : ctx.RidesThrough sol f g y) (hwf : ctx.program.WellFormed)
    (hother : ¬ ctx.program.LeadsTo g f) {e : EdgeId} {edge : Edge}
    (he : ctx.program.edges[e]? = some edge) (hfacts : (ctx.facts.value edge.target).isSome)
    (hn : ctx.program.ReturnsFrom f g edge.target) (hv : ctx.Rides sol f g y edge.source v)
    (hu : (ctx.transfer v e).result = some u) {t : State}
    (ht : u.map.MayBe (.singleton (.var y)) t) : ctx.AtCalls sol f g y t := by
  rcases hn.2 edge (Array.mem_of_getElem? he) rfl with ⟨hk, -⟩ | ⟨c, hk, hexit, hc⟩
  · have hf := isFeasible_of_result hu
    simp [transfer, he, hf, hk, Passage.blocked] at hu
  · have hin : ctx.Within g edge.source := ⟨g, hexit, .refl⟩
    have howner : ∀ k, ctx.program.functionOf edge.source = some k →
        EquivClass.owner (.singleton (.var y)) ≠ some k.id := by
      intro k hk hf
      rw [owner_singleton h.owner, ← hwf.functionIdOf_eq hk, hexit] at hf
      exact hother (Option.some.inj hf ▸ .refl)
    refine hv.bounded (.inl hin) t ((mayBe_leave he hk (fun r a => h.unpassed c r a hc)
      (h.alone.mem _ hn.1 hfacts) ((isInScope_singleton h.owner).2 hn.1) howner hv.only
      (hv.known (.inr hin)) hu).1 ht)

/-- Each edge carries on what is known of the variable. -/
theorem rides_transfer (h : ctx.RidesThrough sol f g y) (hwf : ctx.program.WellFormed)
    (hother : ¬ ctx.program.LeadsTo g f) {e : EdgeId} {edge : Edge}
    (he : ctx.program.edges[e]? = some edge) (hfacts : (ctx.facts.value edge.target).isSome)
    {w : NodeStates} (hw : sol.value edge.source = some w) (hvw : v.Below w)
    (hv : ctx.Rides sol f g y edge.source v) (hu : (ctx.transfer v e).result = some u) :
    ctx.Rides sol f g y edge.target u := by
  have hentered := h.entered edge (Array.mem_of_getElem? he) (Option.isSome_of_eq_some hw)
  have hsource : ctx.Within g edge.target → ctx.Within g edge.source ∨ edge.kind = .enter :=
    fun hn => (hentered hn).imp_right (·.1)
  refine ⟨?_, ?_, ?_, ?_⟩
  · obtain ⟨exprs, w', -, rfl⟩ := transfer_eq_regroup hwf he hu
    rfl
  · intro c s hs hc
    obtain ⟨exprs, w', hcarries, rfl⟩ := transfer_eq_regroup hwf he hu
    by_cases hplace : c ∈ ctx.classesAt edge.target
    · exact (h.alone.only _ c hplace hc).1
    · rw [get?_regroup_of_not_mem hplace, NodeStates.get?_carried] at hs
      split at hs
      · cases hs
      · exact hv.only c s ((hcarries.known c s hs).resolve_left hplace) hc
  · rintro (hf | hn)
    · obtain ⟨exprs, w', -, rfl⟩ := transfer_eq_regroup hwf he hu
      have hextra : (w'.carried (ctx.program.functionIdOf edge.target)).get?
          (.singleton (.var y)) = none := by
        rw [NodeStates.get?_carried, if_pos ((isInScope_singleton h.owner).2 hf)]
      obtain ⟨t, ht⟩ : ∃ t, t ∈ ctx.gather exprs (.singleton (.var y)) := exists_mem_gather
      exact ⟨t, _, get?_regroup_of_mem (h.alone.mem _ hf hfacts) hextra, ht⟩
    · obtain ⟨t, s, hs, ht⟩ := hv.known ((hentered hn).elim .inr fun hcall => .inl hcall.2.1)
      exact ⟨t, s, (h.get?_transfer hwf hother he hn (hsource hn) hu).trans hs, ht⟩
  · rintro (hn | hn) t ht
    · rw [SortedMap.MayBe, h.get?_transfer hwf hother he hn (hsource hn) hu] at ht
      rcases hentered hn with hin | ⟨-, hcall⟩
      · exact hv.bounded (.inl hin) t ht
      · exact ⟨edge.source, w, hcall, hw, hvw _ _ ht⟩
    · exact h.mayBe_return hwf hother he hfacts hn hv hu ht

end RidesThrough

theorem Rides.statesOf_eq (h : ctx.Rides sol f g y n v) :
    v.statesOf (.var y) = v.map.get? (.singleton (.var y)) :=
  NodeStates.statesOf_eq (SortedSet.mem_singleton.2 rfl) h.only

section Context

variable {p : Program} {a : Automaton} {facts : FactsSolution}

theorem facts_of_isFeasible {e : EdgeId} {edge : Edge} (he : p.edges[e]? = some edge)
    (hf : (StatesContext.of p a facts).isFeasible e = true) :
    (facts.value edge.target).isSome := by
  rw [isFeasible_of (Array.getElem?_eq_some_iff.1 he).1, Program.isFeasible, he] at hf
  dsimp only at hf
  split at hf
  · rename_i htarget
    rw [htarget]
    rfl
  · cases hf

/-- The variable rides along at every node of a solution. -/
theorem RidesThrough.rides_value (hwf : p.WellFormed) (hother : ¬ p.LeadsTo g f)
    {pass : String} {limit : Nat}
    (hs : (StatesContext.of p a facts).problem.solve pass limit = .ok sol)
    (h : (StatesContext.of p a facts).RidesThrough sol f g y) (hv : sol.value n = some v) :
    (StatesContext.of p a facts).Rides sol f g y n v := by
  have hpres : (StatesContext.of p a facts).problem.PreservesWithin
      (fun m v => Reaches NodeStates.Below sol.values m v)
      ((StatesContext.of p a facts).Rides sol f g y) := by
    refine ⟨fun m hm => ?_, fun {m v x u} hbound hr hx hu => ?_, RidesThrough.rides_meet⟩
    · obtain rfl := List.mem_singleton.1 hm
      exact h.rides_initial hwf.functionIdOf_root
    · obtain ⟨edge, he, rfl, htarget⟩ := Program.mem_successors.1 hx
      obtain ⟨w, hw, hvw⟩ := hbound
      rw [← htarget]
      exact h.rides_transfer hwf hother he (facts_of_isFeasible he (isFeasible_of_result hu))
        hw hvw hr hu
  exact hpres.solve (rises_problem _) hs (fun _ _ hr => hr) hv

end Context

end StatesContext

namespace Analysis

variable {p : Program} {m : Automaton} {a : Analysis} {f g : FunctionId} {y : Variable}

/-- Where no function calls itself, a variable that rides through a callee is at each return
site in no state but those that it is in at a call of the callee. -/
theorem solve_ridesThrough (hwf : p.WellFormed) (hacyclic : p.AcyclicCalls) {limit : Nat}
    (ha : solve p m limit = .ok a) (hcall : p.Calls f g)
    (h : a.context.RidesThrough a.states f g y) {n : NodeId} (hn : p.ReturnsFrom f g n)
    (hreach : (a.statesAt n).isSome) :
    ∃ s, a.statesOf n (.var y) = some s ∧ ∀ t ∈ s, ∃ c s', p.CallsAt f g c ∧
      a.statesOf c (.var y) = some s' ∧ t ∈ s' := by
  obtain ⟨facts, -, hctx, hs⟩ := solve_eq_ok ha
  have hother : ¬ p.LeadsTo g f := fun hlead => hacyclic f (.head' hcall hlead)
  rw [hctx] at h hs
  obtain ⟨v, hv⟩ := Option.isSome_iff_exists.1 hreach
  have hrides := h.rides_value hwf hother hs hv
  obtain ⟨t, s, hget, -⟩ := hrides.known (.inl hn.1)
  have hstates : ∀ {c w}, a.states.value c = some w → a.statesOf c (.var y) =
      w.map.get? (.singleton (.var y)) := by
    intro c w hw
    rw [statesOf, statesAt, hw, Option.bind_some]
    exact (h.rides_value hwf hother hs hw).statesOf_eq
  refine ⟨s, (hstates hv).trans hget, fun t ht => ?_⟩
  obtain ⟨c, w, hc, hw, s', hs', ht'⟩ := hrides.bounded (.inr hn) t ⟨s, hget, ht⟩
  exact ⟨c, s', hc, (hstates hw).trans hs', ht'⟩

section Allocating

def allocated : Variable := ⟨"p", some 0, .localVar, .pointer⟩

/-- The program `main() { p = malloc(8); outer(); }` with `outer() { inner(); }` and
`inner() {}`, where `main` is entered from outside, and `outer` may be, too. -/
def allocating (exposed : Bool) : Program :=
  let node (f : FunctionId) (kind : NodeKind) : Node := ⟨some f, kind, none, none⟩
  let call (f : FunctionId) (kind : NodeKind) (stmt : Statement) : Node :=
    ⟨some f, kind, some stmt, none⟩
  { nodes := #[⟨none, .root, none, none⟩, node 0 .entry, node 0 .exit, node 1 .entry,
      node 1 .exit, node 2 .entry, node 2 .exit,
      call 0 .statement (.call (some (.var allocated)) "malloc" [.lit 8]),
      call 0 .call (.call none "outer" []), node 0 .returnSite,
      call 1 .call (.call none "inner" []), node 1 .returnSite]
    edges := #[⟨8, 3, .enter⟩, ⟨8, 9, .callToReturn⟩, ⟨4, 9, .leave 8⟩,
      ⟨10, 5, .enter⟩, ⟨10, 11, .callToReturn⟩, ⟨6, 11, .leave 10⟩,
      ⟨1, 7, .flow .always⟩, ⟨7, 8, .flow .always⟩, ⟨9, 2, .flow .always⟩,
      ⟨3, 10, .flow .always⟩, ⟨11, 4, .flow .always⟩, ⟨5, 6, .flow .always⟩, ⟨0, 1, .root⟩] ++
      if exposed then #[⟨0, 3, .root⟩] else #[]
    functions := #[⟨0, "main", [], [allocated], 1, 2, none, none, none⟩,
      ⟨1, "outer", [], [], 3, 4, none, none, none⟩, ⟨2, "inner", [], [], 5, 6, none, none, none⟩]
    globals := [] }

def allocations : Automaton :=
  let ptr : Decl := ⟨"ptr", .anyPointer, true, none⟩
  let machine : Machine :=
    { name := "m"
      clauses := [.decl ptr,
        .states ⟨["ptr.start"], [⟨.shape (.callResult (.decl "ptr") "malloc"),
          [.goto (.named "ptr.unknown")], none⟩], none⟩] }
  machine.automaton ptr

theorem callsForward_allocating (exposed : Bool) : (allocating exposed).CallsForward := by
  cases exposed <;> unfold Program.CallsForward <;> decide

theorem callsAt_allocating (exposed : Bool) : (allocating exposed).CallsAt 0 1 8 :=
  ⟨rfl, ⟨8, 3, .enter⟩, by simp [allocating], rfl, rfl, rfl⟩

theorem eq_of_callsAt_allocating {exposed : Bool} {c : NodeId}
    (h : (allocating exposed).CallsAt 0 1 c) : c = 8 := by
  obtain ⟨hcaller, edge, hedge, rfl, hkind, htarget⟩ := h
  have hcalls : ∀ edge ∈ (allocating exposed).edges, edge.kind = .enter →
      (allocating exposed).functionIdOf edge.source = some 0 → edge.source = 8 := by
    cases exposed <;> decide
  exact hcalls edge hedge hkind hcaller

theorem returnsFrom_allocating (exposed : Bool) : (allocating exposed).ReturnsFrom 0 1 9 :=
  Program.returnsFrom_of_edges 4 (callsAt_allocating exposed) rfl rfl
    (by cases exposed <;> decide)

theorem wellFormed_allocating : (allocating false).WellFormed := by
  decide

/-- Whether the allocated pointer makes up the only class of each node of `main`, and no other
node has one. -/
def tracksAllocated (a : Analysis) : Bool :=
  decide (a.context.classes.size = 12) && (List.range 12).all fun n =>
    decide ((a.context.classesAt n).toList =
      if (allocating false).functionIdOf n = some 0 then [.singleton (.var allocated)] else [])

theorem tracksAlone_allocating {exposed : Bool} {a : Analysis} (ha : tracksAllocated a = true)
    (hp : a.context.program = allocating exposed) :
    a.context.TracksAlone 0 (.var allocated) := by
  obtain ⟨hsize, hall⟩ := Bool.and_eq_true_iff.1 ha
  have hid : a.context.program.functionIdOf = (allocating false).functionIdOf := by
    rw [hp]
    rfl
  have hclasses : ∀ n < 12, (a.context.classesAt n).toList =
      if (allocating false).functionIdOf n = some 0 then [.singleton (.var allocated)] else [] :=
    fun n hn => of_decide_eq_true (List.all_eq_true.1 hall n (List.mem_range.2 hn))
  rw [← hid] at hclasses
  refine ⟨fun n hn _ => ?_, fun n c hc hx => ?_⟩
  · have hlt : n < 12 := by
      rw [hid] at hn
      obtain ⟨node, hnode, -⟩ := Option.bind_eq_some_iff.1 hn
      exact (Array.getElem?_eq_some_iff.1 hnode).1
    rw [SortedSet.mem_def, hclasses n hlt, if_pos hn]
    exact List.mem_singleton.2 rfl
  · by_cases hlt : n < 12
    · rw [SortedSet.mem_def, hclasses n hlt] at hc
      split at hc
      · exact ⟨List.mem_singleton.1 hc, by assumption⟩
      · cases hc
    · have hnone : a.context.classes[n]? = none := by
        rw [Array.getElem?_eq_none_iff, of_decide_eq_true hsize]
        exact Nat.not_lt.1 hlt
      rw [StatesContext.classesAt, hnone] at hc
      exact absurd hc (SortedSet.not_mem_empty _)

/-- If `main` alone is entered from outside, the pointer is after the call what it was before.
-/
theorem solve_ridesThrough_allocating :
    ∃ a, solve (allocating false) allocations 100 = .ok a ∧
      ∃ s, a.statesOf 9 (.var allocated) = some s ∧
        ∀ t ∈ s, ∃ s', a.statesOf 8 (.var allocated) = some s' ∧ t ∈ s' := by
  obtain ⟨a, ha, htest⟩ := exists_eq_ok_of_any
    (solve (allocating false) allocations 100)
    (fun a => (a.statesAt 9).isSome && tracksAllocated a) (by decide +kernel)
  obtain ⟨hreach, htracks⟩ := Bool.and_eq_true_iff.1 htest
  obtain ⟨facts, -, hctx, -⟩ := solve_eq_ok ha
  have hp : a.context.program = allocating false := by rw [hctx]; rfl
  have hrides : a.context.RidesThrough a.states 0 1 allocated := by
    refine ⟨rfl, tracksAlone_allocating htracks hp, fun c result args hc hcall => ?_,
      fun edge hedge _ htarget => ?_⟩
    · rw [hp] at hc hcall
      obtain rfl := eq_of_callsAt_allocating hc
      cases hcall
      exact ⟨nofun, nofun⟩
    · rw [hp] at hedge
      unfold StatesContext.Within at htarget ⊢
      rw [hp] at htarget ⊢
      obtain ⟨k, hk, hlead⟩ := htarget
      have hedges : ∀ edge ∈ (allocating false).edges,
          ∀ k ∈ (allocating false).functionIdOf edge.target, 1 ≤ k →
          (∃ k' ∈ (allocating false).functionIdOf edge.source, k' = 1 ∨ k' = 2) ∨
            edge.kind = .enter ∧ edge.source = 8 := by
        decide
      have hcalls : (allocating false).Calls 1 2 :=
        ⟨10, rfl, ⟨10, 5, .enter⟩, by simp [allocating], rfl, rfl, rfl⟩
      rcases hedges edge hedge k hk ((callsForward_allocating false).le_of_leadsTo hlead) with
        ⟨k', hk', rfl | rfl⟩ | ⟨hkind, hc⟩
      · exact .inl ⟨1, hk', .refl⟩
      · exact .inl ⟨2, hk', .single hcalls⟩
      · exact .inr ⟨hkind, hc ▸ callsAt_allocating false⟩
  obtain ⟨s, hs, hbound⟩ := solve_ridesThrough wellFormed_allocating
    (callsForward_allocating false).acyclicCalls ha ⟨8, callsAt_allocating false⟩ hrides
    (returnsFrom_allocating false) hreach
  refine ⟨a, ha, s, hs, fun t ht => ?_⟩
  obtain ⟨c, s', hc, hs', ht'⟩ := hbound t ht
  obtain rfl := eq_of_callsAt_allocating hc
  exact ⟨s', hs', ht'⟩

/-- If `outer` is entered from outside too, after `main`, the pointer is after the call in the
default state, which it is not in before. -/
theorem allocating_gains_default :
    ∃ a s s' t, solve (allocating true) allocations 100 = .ok a ∧
      (allocating true).AcyclicCalls ∧ (∀ c, (allocating true).CallsAt 0 1 c → c = 8) ∧
      (allocating true).ReturnsFrom 0 1 9 ∧ a.context.TracksAlone 0 (.var allocated) ∧
      a.statesOf 8 (.var allocated) = some s ∧ a.statesOf 9 (.var allocated) = some s' ∧
      t ∈ s' ∧ t ∉ s := by
  obtain ⟨a, ha, htest⟩ := exists_eq_ok_of_any
    (solve (allocating true) allocations 100)
    (fun a => tracksAllocated a &&
      (a.statesOf 8 (.var allocated)).any (allocations.default ∉ ·) &&
      (a.statesOf 9 (.var allocated)).any (allocations.default ∈ ·)) (by decide +kernel)
  obtain ⟨htest, hafter⟩ := Bool.and_eq_true_iff.1 htest
  obtain ⟨htracks, hbefore⟩ := Bool.and_eq_true_iff.1 htest
  obtain ⟨s, hs, hnot⟩ := (Option.any_eq_true _ _).1 hbefore
  obtain ⟨s', hs', hmem⟩ := (Option.any_eq_true _ _).1 hafter
  obtain ⟨facts, -, hctx, -⟩ := solve_eq_ok ha
  have hp : a.context.program = allocating true := by rw [hctx]; rfl
  exact ⟨a, s, s', allocations.default, ha, (callsForward_allocating true).acyclicCalls,
    fun c hc => eq_of_callsAt_allocating hc, returnsFrom_allocating true,
    tracksAlone_allocating htracks hp, hs, hs', of_decide_eq_true hmem, of_decide_eq_true hnot⟩

end Allocating

end Analysis

end Typestate

import Typestate.Proofs.Facts.Inclusion
import Typestate.Proofs.Facts.Scope
import Typestate.Proofs.Facts.Survival
import Typestate.Proofs.Fixpoint.Greatest

/-!
# When fewer facts before an edge are fewer after it

All edges take a subset of facts to a subset of the facts after the edge, but for the linear
assignments. What these derive from the bounds of an operand they do not derive once the value
of the operand is known, so more facts may lead to others and not to more. Where no assignment
rests on bounds in a solution, the solution is the same whatever the order of the edges.
-/
namespace Typestate

namespace Facts

variable {s t : Facts} {f : Fact}

theorem add_subset_add (h : s ⊆ t) : s.add f ⊆ t.add f := by
  intro g hg
  rw [mem_add] at hg ⊢
  exact hg.imp_right (h g)

theorem forget_subset_forget (h : s ⊆ t) (e : Expr) : s.forget e ⊆ t.forget e := by
  intro g hg
  rw [mem_forget] at hg ⊢
  exact ⟨h g hg.1, hg.2⟩

theorem addAll_subset_addAll (h : s ⊆ t) {l m : List Fact}
    (hl : ∀ f ∈ l, f.isTautology = false → f ∈ m) : s.addAll l ⊆ t.addAll m := by
  intro g hg
  rw [mem_addAll] at hg ⊢
  rcases hg with hg | ⟨hg, hinf⟩
  · exact .inl (h g hg)
  · exact .inr ⟨hl g hg hinf, hinf⟩

theorem copy_subset_copy (h : s ⊆ t) (target value : Expr) :
    s.copy target value ⊆ t.copy target value := by
  unfold copy
  split
  · exact forget_subset_forget h target
  · exact add_subset_add (forget_subset_forget h target)

/-- What holds of what follows from a set of facts and of tautologies holds of what follows
from a subset. -/
theorem subset_of_forall {s' t' : Facts}
    (h : (∀ f ∈ t', f.isTautology = true ∨ f ∈ t') → ∀ f ∈ s', f.isTautology = true ∨ f ∈ t') :
    s' ⊆ t' := by
  intro f hf
  rcases h (fun _ => .inr) f hf with htaut | hft
  · rw [s'.informative f hf] at htaut
    cases htaut
  · exact hft

theorem sparing_subset (h : s ⊆ t) {written : List Expr} :
    ∀ f ∈ s.sparing written, f ∈ t.sparing written := by
  intro f hf
  rw [mem_sparing] at hf ⊢
  exact ⟨h f hf.1, hf.2⟩

theorem enter_subset_enter (h : s ⊆ t) (caller : FunctionId) (callee : Function)
    (args : List Expr) : s.enter caller callee args ⊆ t.enter caller callee args := by
  refine subset_of_forall fun ht => ?_
  have hP : ∀ f : Fact, f.isTautology = true →
      f.isTautology = true ∨ f ∈ t.enter caller callee args := fun _ => .inl
  obtain ⟨hbound, htravel⟩ := (forall_mem_enter hP).1 ht
  exact (forall_mem_enter hP).2 ⟨hbound, fun f hf => htravel f (sparing_subset h f hf)⟩

theorem leave_subset_leave (h : s ⊆ t) (caller : FunctionId) (callee : Function)
    (result : Option Expr) (args : List Expr) :
    s.leave caller callee result args ⊆ t.leave caller callee result args := by
  refine subset_of_forall fun ht => ?_
  have hP : ∀ f : Fact, f.isTautology = true →
      f.isTautology = true ∨ f ∈ t.leave caller callee result args := fun _ => .inl
  obtain ⟨hbound, htravel⟩ := (forall_mem_leave hP).1 ht
  exact (forall_mem_leave hP).2 ⟨hbound, fun f hf => htravel f (sparing_subset h f hf)⟩

/-- What a statement derives from the facts before it by arithmetic. -/
def derived (s : Facts) : Statement → List Fact
  | .assign target (.binary op a b) => s.linear target.simplify op a b
  | _ => []

theorem assign_subset_assign (h : s ⊆ t) {target : Expr} {value : Rvalue}
    (hd : ∀ f ∈ s.derived (.assign target value), f.isTautology = false →
      f ∈ t.derived (.assign target value)) :
    s.assign target.simplify value ⊆ t.assign target.simplify value := by
  have hforget := forget_subset_forget h target.simplify
  unfold assign
  split
  · exact copy_subset_copy h _ _
  · exact copy_subset_copy h _ _
  · exact addAll_subset_addAll hforget hd
  · split
    · exact add_subset_add hforget
    · exact hforget
  · exact hforget

/-- After a statement a subset of facts is a subset, if what it derives the other set does. -/
theorem afterStatement_subset (h : s ⊆ t) {kind : EdgeKind} {stmt : Statement}
    (hd : ∀ f ∈ s.derived stmt, f.isTautology = false → f ∈ t.derived stmt) :
    s.afterStatement kind stmt ⊆ t.afterStatement kind stmt := by
  cases stmt with
  | assign target value => exact assign_subset_assign h hd
  | phi target value => exact copy_subset_copy h _ _
  | call result callee args =>
    intro f hf
    unfold afterStatement at hf ⊢
    rw [mem_foldl_forget] at hf ⊢
    refine ⟨?_, hf.2⟩
    cases result with
    | none => exact h f hf.1
    | some e => exact forget_subset_forget h _ f hf.1
  | cond a op b =>
    unfold afterStatement
    dsimp only
    split
    · exact add_subset_add h
    · exact add_subset_add h
    · exact h
  | switch index => exact addAll_subset_addAll h fun f hf _ => hf
  | ret value => exact h
  | nop => exact h

theorem exists_assign_of_mem_derived {stmt : Statement} (h : f ∈ s.derived stmt) :
    ∃ target op a b, stmt = .assign target (.binary op a b) := by
  unfold derived at h
  split at h
  · exact ⟨_, _, _, _, rfl⟩
  · cases h

theorem derived_subset_iff (h : s ⊆ t) {kind : EdgeKind} {stmt : Statement} :
    s.afterStatement kind stmt ⊆ t.afterStatement kind stmt ↔
      ∀ f ∈ s.derived stmt, f.isTautology = false → f ∈ t.derived stmt := by
  refine ⟨fun hafter f hf hinf => ?_, afterStatement_subset h⟩
  obtain ⟨target, op, a, b, rfl⟩ := exists_assign_of_mem_derived hf
  rcases mem_addAll.1 (hafter f (mem_addAll.2 (.inr ⟨hf, hinf⟩))) with hforget | hd
  · obtain ⟨c, n, rfl⟩ := mem_linear hf
    have hself := (mentions_of.1 (mem_forget.1 hforget).2).1
    rw [Expr.simplify_of_isCanonical target.isCanonical_simplify, Expr.mentions_self] at hself
    cases hself
  · exact hd.1

/-- The bounds of an operand, moved along to the target of `operand op n`. -/
def movedBounds (s : Facts) (target : Expr) (op : BinaryOp) (operand : Expr) (n : Int) :
    List Fact :=
  (s.toList.filter (·.left = operand)).filterMap fun f => do
    let bound ← f.right.literal?
    let r ← op.applyLinear bound n
    return Fact.of target (if op = .mul ∧ n < 0 then f.op.flip else f.op) (.lit r)

/-- Whether a statement assigns a linear function of an operand, other than zero, to a
target. -/
inductive Scales : Statement → Expr → BinaryOp → Expr → Int → Prop
  | right {target a b : Expr} {op : BinaryOp} {n : Int} (ha : a.literal? = none)
    (hb : b.literal? = some n) (hn : ¬ (op = .mul ∧ n = 0)) :
    Scales (.assign target (.binary op a b)) target.simplify op a.simplify n
  | left {target a b : Expr} {op : BinaryOp} {n : Int} (ha : a.literal? = some n)
    (hb : b.literal? = none) (hop : op.isCommutative = true) (hn : ¬ (op = .mul ∧ n = 0)) :
    Scales (.assign target (.binary op a b)) target.simplify op b.simplify n

theorem moved_of_ne_zero {target operand : Expr} {op : BinaryOp} {n : Int}
    (hn : ¬ (op = .mul ∧ n = 0)) : s.moved target op operand n =
      match s.constantOf operand with
      | some m => (op.applyLinear m n).toList.map fun r => Fact.of target .eq (.lit r)
      | none => s.movedBounds target op operand n := by
  unfold moved
  rw [if_neg hn]
  rfl

namespace Scales

variable {stmt : Statement} {target operand : Expr} {op : BinaryOp} {n : Int}

theorem derived_eq (h : Scales stmt target op operand n) (s : Facts) : s.derived stmt =
    match s.constantOf operand with
    | some m => (op.applyLinear m n).toList.map fun r => Fact.of target .eq (.lit r)
    | none => s.movedBounds target op operand n := by
  cases h with
  | right ha hb hn =>
    rw [derived, linear, ha, hb]
    exact moved_of_ne_zero hn
  | left ha hb hop hn =>
    rw [derived, linear, ha, hb]
    dsimp only
    rw [if_pos hop]
    exact moved_of_ne_zero hn

end Scales

theorem scales_or_derived_eq (stmt : Statement) :
    (∃ target op operand n, Scales stmt target op operand n) ∨
      ∀ s t : Facts, s.derived stmt = t.derived stmt := by
  have moved : ∀ target op operand n, (op = .mul ∧ n = 0) →
      ∀ s t : Facts, s.moved target op operand n = t.moved target op operand n := by
    intro target op operand n hn s t
    rw [Facts.moved, Facts.moved, if_pos hn, if_pos hn]
  by_cases hassign : ∃ target op a b, stmt = .assign target (.binary op a b)
  · obtain ⟨target, op, a, b, rfl⟩ := hassign
    change _ ∨ ∀ s t : Facts, s.linear _ op a b = t.linear _ op a b
    unfold linear
    split
    · exact .inr fun _ _ => rfl
    · rename_i n ha hb
      by_cases hn : op = .mul ∧ n = 0
      · exact .inr (moved _ _ _ _ hn)
      · exact .inl ⟨_, _, _, _, .right ha hb hn⟩
    · rename_i m ha hb
      split
      · rename_i hop
        by_cases hn : op = .mul ∧ m = 0
        · exact .inr (moved _ _ _ _ hn)
        · exact .inl ⟨_, _, _, _, .left ha hb hop hn⟩
      · exact .inr fun _ _ => rfl
    · exact .inr fun _ _ => rfl
  · have nil : ∀ s : Facts, s.derived stmt = [] := fun s =>
      List.eq_nil_iff_forall_not_mem.2 fun f hf => hassign (exists_assign_of_mem_derived hf)
    exact .inr fun s t => (nil s).trans (nil t).symm

/-- Whether a statement derives something from the bounds of an operand, because its value is
not known. -/
def RestsOnBounds (s : Facts) (stmt : Statement) (operand : Expr) : Prop :=
  ∃ target op n, Scales stmt target op operand n ∧ s.constantOf operand = none ∧
    ∃ f ∈ s.movedBounds target op operand n, f.isTautology = false

theorem movedBounds_subset (h : s ⊆ t) {target operand : Expr} {op : BinaryOp} {n : Int} :
    ∀ f ∈ s.movedBounds target op operand n, f ∈ t.movedBounds target op operand n := by
  intro f hf
  obtain ⟨g, hg, hgf⟩ := List.mem_filterMap.1 hf
  obtain ⟨hg, hleft⟩ := List.mem_filter.1 hg
  exact List.mem_filterMap.2 ⟨g, List.mem_filter.2 ⟨h g hg, hleft⟩, hgf⟩

theorem constantOf_of_mem (hs : s.isPossible = true) (hf : f ∈ s) (hop : f.op = .eq) {n : Int}
    (hn : f.right = .lit n) : s.constantOf f.left = some n := by
  have hpair : (f.left, f.right) ∈
      (s.toList.filter (·.op = .eq)).map fun f => (f.left, f.right) :=
    List.mem_map.2 ⟨f, List.mem_filter.2 ⟨hf, decide_eq_true hop⟩, rfl⟩
  obtain ⟨c, hc, hl, hr⟩ := Partition.exists_class_of_pair hpair
  unfold constantOf
  rw [Expr.simplify_of_isCanonical f.left_canonical]
  exact (Partition.disjoint_ofPairs _).constantOf_eq hc ((isPossible_iff.1 hs).1 c hc) hl
    (hn ▸ hr)

theorem op_of {target : Expr} {c : Comparison} {n : Int} : (Fact.of target c (.lit n)).op = c := by
  unfold Fact.of
  split
  · rename_i h
    cases (show true = false from h.2)
  · rfl

theorem op_ne_of_mem_movedBounds (hs : s.isPossible = true) {target operand : Expr}
    {op : BinaryOp} {n : Int} (hnone : s.constantOf operand = none)
    (hf : f ∈ s.movedBounds target op operand n) : f.op ≠ .eq := by
  obtain ⟨g, hg, hgf⟩ := List.mem_filterMap.1 hf
  obtain ⟨hg, hleft⟩ := List.mem_filter.1 hg
  simp only [Option.bind_eq_bind, Option.bind_eq_some_iff, Option.pure_def,
    Option.some.injEq] at hgf
  obtain ⟨bound, hbound, r, -, rfl⟩ := hgf
  intro hop
  rw [op_of] at hop
  have heq : g.op = .eq := by
    split at hop
    · cases hgop : g.op <;> simp [hgop, Comparison.flip] at hop ⊢
    · exact hop
  have hconst := constantOf_of_mem hs hg heq (Expr.literal?_eq_some.1 hbound)
  rw [of_decide_eq_true hleft, hnone] at hconst
  cases hconst

/-- A possible set of facts derives what a subset does, unless it knows the value of an operand
on whose bounds the statement rests for the subset. -/
theorem derived_subset_derived_iff (h : s ⊆ t) (ht : t.isPossible = true) {stmt : Statement} :
    (∀ f ∈ s.derived stmt, f.isTautology = false → f ∈ t.derived stmt) ↔
      ∀ operand, s.RestsOnBounds stmt operand → t.constantOf operand = none := by
  constructor
  · rintro hd operand ⟨target, op, n, hscales, hnone, f, hf, hinf⟩
    have hft := hd f (by rwa [hscales.derived_eq, hnone]) hinf
    rw [hscales.derived_eq] at hft
    cases hconst : t.constantOf operand with
    | none => rfl
    | some m =>
      rw [hconst] at hft
      obtain ⟨r, -, rfl⟩ := List.mem_map.1 hft
      exact absurd op_of (op_ne_of_mem_movedBounds (isPossible_of_subset h ht) hnone hf)
  · intro hrest f hf hinf
    rcases scales_or_derived_eq stmt with ⟨target, op, operand, n, hscales⟩ | heq
    · rw [hscales.derived_eq] at hf ⊢
      cases hs : s.constantOf operand with
      | some m =>
        rw [hs] at hf
        rwa [constantOf_of_subset h ht hs]
      | none =>
        rw [hs] at hf
        rw [hrest operand ⟨target, op, n, hscales, hs, f, hf, hinf⟩]
        exact movedBounds_subset h f hf
    · rwa [heq t s]

instance : Std.Associative Facts.meet := ⟨fun s t u => ext fun f => by simp [and_assoc]⟩

instance : Std.Commutative Facts.meet := ⟨fun s t => ext fun f => by simp [and_comm]⟩

instance : Std.IdempotentOp Facts.meet := ⟨fun s => ext fun f => by simp⟩

theorem meet_eq_left_iff : s.meet t = s ↔ s ⊆ t := by
  constructor
  · intro h f hf
    rw [← h, mem_meet] at hf
    exact hf.2
  · exact fun h => ext fun f => ⟨fun hf => (mem_meet.1 hf).1, fun hf => mem_meet.2 ⟨hf, h f hf⟩⟩

end Facts

namespace Program

variable {p : Program} {e : EdgeId} {s t : Facts}

def stmtAlong (p : Program) (e : EdgeId) : Option Statement := do
  let edge ← p.edges[e]?
  if edge.kind.isInterprocedural then none else p.stmtAt edge.source

/-- What is derived by arithmetic along an edge. -/
def derivedAlong (p : Program) (s : Facts) (e : EdgeId) : List Fact :=
  (p.stmtAlong e).elim [] s.derived

/-- Whether one set of facts is a subset of another after an edge, if the edge can be taken. -/
def FlowsUnder (p : Program) (e : EdgeId) (s t : Facts) : Prop :=
  ((p.factsFlow s e).1 = none → (p.factsFlow t e).1 = none) ∧
  ∀ t', (p.factsFlow t e).1 = some t' → ∃ s', (p.factsFlow s e).1 = some s' ∧ s' ⊆ t'

/-- Whether something is derived along an edge from the bounds of an operand, because its value
is not known. -/
def RestsOnBounds (p : Program) (s : Facts) (e : EdgeId) (operand : Expr) : Prop :=
  ∃ stmt, p.stmtAlong e = some stmt ∧ s.RestsOnBounds stmt operand

theorem derivedAlong_eq {stmt : Statement} (h : p.stmtAlong e = some stmt) :
    p.derivedAlong s e = s.derived stmt := by
  rw [derivedAlong, h, Option.elim_some]

theorem derivedAlong_eq_nil (h : p.stmtAlong e = none) : p.derivedAlong s e = [] := by
  rw [derivedAlong, h, Option.elim_none]

/-- Before the question whether the facts are possible, it depends on what is derived whether a
subset stays one. -/
theorem factsAfter_subset_iff (h : s ⊆ t) {t' : Facts} (ht : p.factsAfter t e = some t') :
    ∃ s', p.factsAfter s e = some s' ∧ (s' ⊆ t' ↔
      ∀ f ∈ p.derivedAlong s e, f.isTautology = false → f ∈ p.derivedAlong t e) := by
  have underived : ∀ {s'}, p.stmtAlong e = none → s' ⊆ t' → (s' ⊆ t' ↔
      ∀ f ∈ p.derivedAlong s e, f.isTautology = false → f ∈ p.derivedAlong t e) := by
    intro s' hnone hsub
    rw [derivedAlong_eq_nil hnone]
    exact iff_of_true hsub fun f hf => absurd hf List.not_mem_nil
  cases hedge : p.edges[e]? with
  | none => simp [factsAfter, hedge] at ht
  | some edge =>
    have hkinds : p.stmtAlong e =
        if edge.kind.isInterprocedural then none else p.stmtAt edge.source := by
      simp [stmtAlong, hedge]
    cases hkind : edge.kind with
    | root =>
      rw [hkind] at hkinds
      obtain rfl : t = t' := by simpa [factsAfter, hedge, hkind] using ht
      exact ⟨s, by simp [factsAfter, hedge, hkind], underived hkinds h⟩
    | enter =>
      rw [hkind] at hkinds
      obtain ⟨callee, caller, result, args, hcallee, hcaller, hcall, rfl⟩ :=
        factsAfter_of_enter hedge hkind ht
      exact ⟨s.enter caller callee args,
        by simp [factsAfter, hedge, hkind, hcallee, hcaller, hcall],
        underived hkinds (Facts.enter_subset_enter h _ _ _)⟩
    | leave call =>
      rw [hkind] at hkinds
      obtain ⟨callee, caller, result, args, hcallee, hcaller, hcall, rfl⟩ :=
        factsAfter_of_leave hedge hkind ht
      exact ⟨s.leave caller callee result args,
        by simp [factsAfter, hedge, hkind, hcallee, hcaller, hcall],
        underived hkinds (Facts.leave_subset_leave h _ _ _ _)⟩
    | flow guard | callToReturn =>
      rw [hkind] at hkinds
      cases hstmt : p.stmtAt edge.source with
      | none =>
        obtain rfl : t = t' := by simpa [factsAfter, hedge, hkind, hstmt] using ht
        exact ⟨s, by simp [factsAfter, hedge, hkind, hstmt], underived (hkinds.trans hstmt) h⟩
      | some stmt =>
        obtain rfl : t.afterStatement edge.kind stmt = t' := by
          simpa [factsAfter, hedge, hkind, hstmt] using ht
        refine ⟨s.afterStatement edge.kind stmt, by simp [factsAfter, hedge, hkind, hstmt], ?_⟩
        rw [derivedAlong_eq (hkinds.trans hstmt), derivedAlong_eq (hkinds.trans hstmt)]
        exact Facts.derived_subset_iff h

/-- A subset of facts stays one along an edge that can be taken exactly if all that is derived
from it is derived from the whole set. -/
theorem flowsUnder_iff (h : s ⊆ t) : p.FlowsUnder e s t ↔ (p.factsFlow t e).1 = none ∨
    ∀ f ∈ p.derivedAlong s e, f.isTautology = false → f ∈ p.derivedAlong t e := by
  constructor
  · rintro ⟨-, hflow⟩
    cases ht : (p.factsFlow t e).1 with
    | none => exact .inl rfl
    | some t' =>
      obtain ⟨s', hs', hsub⟩ := hflow t' ht
      obtain ⟨s'', hs'', hiff⟩ := factsAfter_subset_iff h (factsFlow_eq_some.1 ht).1
      obtain rfl : s'' = s' := Option.some.inj (hs''.symm.trans (factsFlow_eq_some.1 hs').1)
      exact .inr (hiff.1 hsub)
  · intro hderived
    have hflow : ∀ t', (p.factsFlow t e).1 = some t' →
        ∃ s', (p.factsFlow s e).1 = some s' ∧ s' ⊆ t' := by
      intro t' ht
      rw [ht] at hderived
      obtain ⟨hafter, hpossible⟩ := factsFlow_eq_some.1 ht
      obtain ⟨s', hs', hiff⟩ := factsAfter_subset_iff h hafter
      have hsub := hiff.2 (hderived.resolve_left (Option.some_ne_none t'))
      exact ⟨s', factsFlow_eq_some.2 ⟨hs', Facts.isPossible_of_subset hsub hpossible⟩, hsub⟩
    refine ⟨fun hs => ?_, hflow⟩
    cases ht : (p.factsFlow t e).1 with
    | none => rfl
    | some t' =>
      obtain ⟨s', hs', -⟩ := hflow t' ht
      rw [hs] at hs'
      cases hs'

theorem derivedAlong_subset_iff (h : s ⊆ t) (ht : t.isPossible = true) :
    (∀ f ∈ p.derivedAlong s e, f.isTautology = false → f ∈ p.derivedAlong t e) ↔
      ∀ operand, p.RestsOnBounds s e operand → t.constantOf operand = none := by
  cases hstmt : p.stmtAlong e with
  | none => simp [derivedAlong, RestsOnBounds, hstmt]
  | some stmt =>
    rw [derivedAlong_eq hstmt, derivedAlong_eq hstmt, Facts.derived_subset_derived_iff h ht]
    simp [RestsOnBounds, hstmt]

/-- All facts that the solver holds on its way are possible. -/
theorem preserves_isPossible (p : Program) :
    p.factsProblem.Preserves fun _ s => s.isPossible = true where
  seed _ _ := Facts.isPossible_empty
  transfer _ _ ht := (factsFlow_eq_some.1 ht).2
  meet hs _ := Facts.isPossible_meet hs

instance (p : Program) : Std.Associative p.factsProblem.meet :=
  inferInstanceAs (Std.Associative Facts.meet)

instance (p : Program) : Std.Commutative p.factsProblem.meet :=
  inferInstanceAs (Std.Commutative Facts.meet)

instance (p : Program) : Std.IdempotentOp p.factsProblem.meet :=
  inferInstanceAs (Std.IdempotentOp Facts.meet)

theorem below_factsProblem {p : Program} {s t : Facts} : p.factsProblem.Below s t ↔ s ⊆ t :=
  Facts.meet_eq_left_iff

/-- Whether at no node of a solution an assignment rests on the bounds of an operand. -/
def NeedsNoBounds (p : Program) (sol : FactsSolution) : Prop :=
  ∀ n s stmt operand, sol.value n = some s → p.stmtAt n = some stmt →
    ¬ s.RestsOnBounds stmt operand

theorem not_restsOnBounds {sol : FactsSolution} (h : p.NeedsNoBounds sol) {n : NodeId}
    (hv : sol.value n = some s) {x : EdgeId × NodeId} (hx : x ∈ p.successors n) (operand : Expr) :
    ¬ p.RestsOnBounds s x.1 operand := by
  rintro ⟨stmt, hstmt, hrests⟩
  obtain ⟨edge, hedge, rfl, -⟩ := mem_successors.1 hx
  cases hkind : edge.kind.isInterprocedural with
  | true => simp [stmtAlong, hedge, hkind] at hstmt
  | false =>
    have hat : p.stmtAt edge.source = some stmt := by
      simpa [stmtAlong, hedge, hkind] using hstmt
    exact h edge.source s stmt operand hv hat hrests

section Order

variable {edges : Array Edge} {pass pass' : String} {limit limit' : Nat}
  {sol sol' : FactsSolution}

theorem factsFlow_congr {e e' : EdgeId} (h : p.edges[e]? = edges[e']?) :
    ({ p with edges }.factsFlow s e').1 = (p.factsFlow s e).1 := by
  unfold factsFlow factsAfter
  rw [h]
  rfl

/-- What solves the facts problem of a program solves that of one with some of its edges. -/
theorem isSolution_of_edges (h : ∀ edge ∈ p.edges, edge ∈ edges)
    {A : NodeId → Option Facts} (hA : { p with edges }.factsProblem.IsSolution A) :
    p.factsProblem.IsSolution A where
  entry := hA.entry
  edge n x hx := by
    obtain ⟨edge, hedge, hsource, htarget⟩ := mem_successors.1 hx
    obtain ⟨e', he'⟩ := Array.mem_iff_getElem?.1 (h edge (Array.mem_of_getElem? hedge))
    have hunder := hA.edge n (e', x.2) (mem_successors.2 ⟨edge, he', hsource, htarget⟩)
    have hbrings : { p with edges }.factsProblem.brings e' (A n) =
        p.factsProblem.brings x.1 (A n) := by
      unfold Dataflow.brings
      exact congrArg _ (funext fun s => factsFlow_congr (hedge.trans he'.symm))
    exact hbrings ▸ hunder

/-- A solution that needs no bounds is under the solution for other edges, if these are among
its own. -/
theorem NeedsNoBounds.under_value (h : p.NeedsNoBounds sol')
    (hedges : ∀ edge ∈ p.edges, edge ∈ edges) (hs : p.factsProblem.solve pass limit = .ok sol)
    (hs' : { p with edges }.factsProblem.solve pass' limit' = .ok sol') (n : NodeId) :
    p.factsProblem.Under (sol'.value n) (sol.value n) := by
  have hA : p.factsProblem.IsSolution sol'.value :=
    isSolution_of_edges hedges (Dataflow.isSolution_solve hs')
  refine hA.under_solve (preserves_isPossible p) (fun n x hx t ht hunder => ?_) hs n
  obtain ⟨s, hv, hbelow⟩ := Dataflow.under_some_iff.1 hunder
  have hst := below_factsProblem.1 hbelow
  have hflow : p.FlowsUnder x.1 s t := by
    refine (flowsUnder_iff hst).2 (.inr ((derivedAlong_subset_iff hst ht).2 ?_))
    exact fun operand hrests => absurd hrests (not_restsOnBounds h hv hx operand)
  intro t' ht'
  obtain ⟨s', hs', hsub⟩ := hflow.2 t' ht'
  refine ⟨s', ?_, below_factsProblem.2 hsub⟩
  rw [hv]
  exact hs'

end Order

/-- Along each edge a subset of facts stays one exactly if all that is derived from it is derived
from the whole set; a possible set falls short only if it knows the value of an operand whose
bounds the subset makes use of. Where no solution needs bounds, the order of the edges does not
matter. -/
theorem factsFlow_monotone_iff (p : Program) :
    (∀ e s t, s ⊆ t → (p.FlowsUnder e s t ↔ (p.factsFlow t e).1 = none ∨
      ∀ f ∈ p.derivedAlong s e, f.isTautology = false → f ∈ p.derivedAlong t e)) ∧
    (∀ e s t, s ⊆ t → t.isPossible = true →
      ((∀ f ∈ p.derivedAlong s e, f.isTautology = false → f ∈ p.derivedAlong t e) ↔
        ∀ operand, p.RestsOnBounds s e operand → t.constantOf operand = none)) ∧
    ∀ edges, edges.Perm p.edges → ∀ pass pass' limit limit' sol sol',
      p.factsProblem.solve pass limit = .ok sol →
      { p with edges }.factsProblem.solve pass' limit' = .ok sol' →
      p.NeedsNoBounds sol → p.NeedsNoBounds sol' → ∀ n, sol'.value n = sol.value n := by
  refine ⟨fun e s t h => flowsUnder_iff h, fun e s t h ht => derivedAlong_subset_iff h ht, ?_⟩
  intro edges hperm pass pass' limit limit' sol sol' hs hs' hsol hsol' n
  have hunder := hsol'.under_value (fun edge he => hperm.mem_iff.2 he) hs hs' n
  have hover : { p with edges }.factsProblem.Under (sol.value n) (sol'.value n) :=
    NeedsNoBounds.under_value (p := { p with edges }) hsol
      (fun edge he => hperm.mem_iff.1 he) hs' hs n
  exact hunder.antisymm hover

def intVar (name : String) : Expr := .var ⟨name, some 0, .localVar, .integer⟩

/-- The program `if (…) x = 5; if (compared <= 5) t = x + 1;` with its edges in some order. -/
def joining (compared : Expr) (edges : Array Edge) : Program :=
  let node (kind : NodeKind) (stmt : Option Statement) : Node := ⟨some 0, kind, stmt, none⟩
  { nodes := #[⟨none, .root, none, none⟩, node .entry none, node .exit none,
      node .statement (some (.assign (intVar "x") (.use (.lit 5)))),
      node .statement (some .nop),
      node .statement (some (.cond compared .le (.lit 5))),
      node .statement (some (.assign (intVar "t") (.binary .add (intVar "x") (.lit 1)))),
      node .statement (some .nop)]
    edges
    functions := #[⟨0, "f", [], [], 1, 2, none, none, none⟩]
    globals := [] }

/-- The edges of `joining`, with the branch on which nothing is known of `x` first. -/
def plainFirst : Array Edge :=
  #[⟨0, 1, .root⟩, ⟨1, 4, .flow .always⟩, ⟨1, 3, .flow .always⟩, ⟨3, 5, .flow .always⟩,
    ⟨4, 5, .flow .always⟩, ⟨5, 6, .flow (.branch true)⟩, ⟨5, 2, .flow (.branch false)⟩,
    ⟨6, 7, .flow .always⟩, ⟨7, 2, .flow .always⟩]

/-- The same edges, with the branch that assigns to `x` first. -/
def assignedFirst : Array Edge :=
  #[⟨0, 1, .root⟩, ⟨1, 3, .flow .always⟩, ⟨1, 4, .flow .always⟩, ⟨3, 5, .flow .always⟩,
    ⟨4, 5, .flow .always⟩, ⟨5, 6, .flow (.branch true)⟩, ⟨5, 2, .flow (.branch false)⟩,
    ⟨6, 7, .flow .always⟩, ⟨7, 2, .flow .always⟩]

theorem perm_joining : assignedFirst.Perm plainFirst := by
  refine Array.perm_iff_toList_perm.2 ?_
  decide

/-- What is known of `x` on the branch that assigns to it, and `x <= 5` alone. -/
def atMostFive : Facts := .ofList [.of (intVar "x") .le (.lit 5)]

def equalToFive : Facts := atMostFive.add (.of (intVar "x") .eq (.lit 5))

theorem atMostFive_subset : atMostFive ⊆ equalToFive :=
  fun _ hf => Facts.mem_add.2 (.inr hf)

/-- What follows from `x <= 5` does not follow once `x == 5` is known as well, and the facts after
`t = x + 1` depend on the branch that is visited first. -/
theorem factsFlow_joining_not_monotone :
    (∃ s t : Facts, s ⊆ t ∧ t.isPossible = true ∧
      ¬ (joining (intVar "x") plainFirst).FlowsUnder 7 s t) ∧
    ∃ sol sol',
      (joining (intVar "x") plainFirst).factsProblem.solve "facts" 100 = .ok sol ∧
      (joining (intVar "x") assignedFirst).factsProblem.solve "facts" 100 = .ok sol' ∧
      sol.value 7 ≠ sol'.value 7 := by
  constructor
  · refine ⟨atMostFive, equalToFive, atMostFive_subset, by decide +kernel, fun h => ?_⟩
    obtain ⟨s', hs', hsub⟩ := h.2 (equalToFive.add (.of (intVar "t") .eq (.lit 6)))
      (by decide +kernel)
    have hbound : s' = atMostFive.add (.of (intVar "t") .le (.lit 6)) :=
      Option.some.inj (hs'.symm.trans (by decide +kernel))
    have hmem : Fact.of (intVar "t") .le (.lit 6) ∈
        equalToFive.add (.of (intVar "t") .eq (.lit 6)) :=
      hsub _ (hbound ▸ Facts.mem_add.2 (.inl ⟨rfl, by decide⟩))
    exact absurd hmem (by decide +kernel)
  · obtain ⟨sol, hs, hv⟩ := exists_eq_ok_of_any
      ((joining (intVar "x") plainFirst).factsProblem.solve "facts" 100)
      (fun sol => sol.value 7 = some atMostFive) (by decide +kernel)
    obtain ⟨sol', hs', hv'⟩ := exists_eq_ok_of_any
      ((joining (intVar "x") assignedFirst).factsProblem.solve "facts" 100)
      (fun sol => sol.value 7 = some (atMostFive.add (.of (intVar "t") .le (.lit 6))))
      (by decide +kernel)
    refine ⟨sol, sol', hs, hs', ?_⟩
    rw [of_decide_eq_true hv, of_decide_eq_true hv']
    decide +kernel

theorem eq_of_scales_joining {compared : Expr} {edges : Array Edge} {n : NodeId} {stmt : Statement}
    (hstmt : (joining compared edges).stmtAt n = some stmt) {target operand : Expr}
    {op : BinaryOp} {k : Int} (h : Facts.Scales stmt target op operand k) :
    n = 6 ∧ target = intVar "t" ∧ op = .add ∧ operand = intVar "x" ∧ k = 1 := by
  match n, hstmt with
  | 3, hstmt | 4, hstmt | 5, hstmt | 7, hstmt =>
    cases hstmt
    cases h
  | 6, hstmt =>
    cases hstmt
    cases h with
    | right ha hb hn =>
      cases hb
      exact ⟨rfl, rfl, rfl, rfl, rfl⟩
    | left ha => cases ha

theorem needsNoBounds_joining {compared : Expr} {edges : Array Edge} {sol : FactsSolution}
    {s : Facts} (hv : sol.value 6 = some s)
    (hs : s.movedBounds (intVar "t") .add (intVar "x") 1 = []) :
    (joining compared edges).NeedsNoBounds sol := by
  rintro n s' stmt operand hn hstmt ⟨target, op, k, hscales, -, f, hf, -⟩
  obtain ⟨rfl, rfl, rfl, rfl, rfl⟩ := eq_of_scales_joining hstmt hscales
  obtain rfl : s = s' := Option.some.inj (hv.symm.trans hn)
  rw [hs] at hf
  cases hf

/-- More is known of `y`, and the condition is about `y` as well. -/
theorem factsFlow_monotone_iff_joining :
    (∃ t : Facts, atMostFive ⊆ t ∧ t.isPossible = true ∧
      (joining (intVar "y") plainFirst).FlowsUnder 7 atMostFive t) ∧
    ∃ sol sol',
      (joining (intVar "y") plainFirst).factsProblem.solve "facts" 100 = .ok sol ∧
      (joining (intVar "y") assignedFirst).factsProblem.solve "facts" 90 = .ok sol' ∧
      ∀ n, sol'.value n = sol.value n := by
  obtain ⟨hflows, hderived, horder⟩ := factsFlow_monotone_iff (joining (intVar "y") plainFirst)
  constructor
  · have hsub : atMostFive ⊆ atMostFive.add (.of (intVar "y") .eq (.lit 1)) :=
      fun _ hf => Facts.mem_add.2 (.inr hf)
    have hpossible : (atMostFive.add (.of (intVar "y") .eq (.lit 1))).isPossible = true := by
      decide +kernel
    refine ⟨_, hsub, hpossible, (hflows 7 _ _ hsub).2 (.inr ((hderived 7 _ _ hsub hpossible).2 ?_))⟩
    rintro operand ⟨stmt, hstmt, target, op, n, hscales, -⟩
    obtain ⟨-, -, -, rfl, -⟩ := eq_of_scales_joining (n := 6) hstmt hscales
    decide +kernel
  · obtain ⟨sol, hs, hv⟩ := exists_eq_ok_of_any
      ((joining (intVar "y") plainFirst).factsProblem.solve "facts" 100)
      (fun sol => sol.value 6 = some (.ofList [.of (intVar "y") .le (.lit 5)])) (by decide +kernel)
    obtain ⟨sol', hs', hv'⟩ := exists_eq_ok_of_any
      ((joining (intVar "y") assignedFirst).factsProblem.solve "facts" 90)
      (fun sol => sol.value 6 = some (.ofList [.of (intVar "y") .le (.lit 5)])) (by decide +kernel)
    have hnone : (Facts.ofList [.of (intVar "y") .le (.lit 5)]).movedBounds (intVar "t") .add
        (intVar "x") 1 = [] := by decide +kernel
    exact ⟨sol, sol', hs, hs', horder assignedFirst perm_joining _ _ _ _ sol sol' hs hs'
      (needsNoBounds_joining (of_decide_eq_true hv) hnone)
      (needsNoBounds_joining (of_decide_eq_true hv') hnone)⟩

end Program

end Typestate

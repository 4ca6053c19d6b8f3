import Typestate.Proofs.Facts.Feasibility
import Typestate.Proofs.Facts.Results

/-!
# A caller's facts past a callee

A fact of a function alone enters the functions that it calls, and comes back if it is still
known at their exits. A callee that writes nothing which the fact mentions loses it in two ways:
it is entered from elsewhere without the fact, or it makes a call itself, at whose return site no
fact of another function is let through. From there the loss spreads along the callee's own edges.
-/
namespace Typestate

open Relation (EqvGen)

namespace Facts

variable {s t : Facts} {φ : Fact} {target : Expr}

theorem eq_of_eqvGen_of_not_mentions (h : ∀ ψ ∈ s, ψ.mentions target = false) {x y : Expr}
    (hxy : EqvGen s.Equates x y) : x = target ↔ y = target := by
  induction hxy with
  | rel x y hxy =>
    obtain ⟨ψ, hψ, -, rfl, rfl⟩ := hxy
    have hsides := h ψ hψ
    rw [Fact.mentions, Bool.or_eq_false_iff] at hsides
    refine iff_of_false ?_ ?_
    · rintro rfl
      exact absurd hsides.1 (by rw [Expr.mentions_self]; decide)
    · rintro rfl
      exact absurd hsides.2 (by rw [Expr.mentions_self]; decide)
  | refl => exact Iff.rfl
  | symm _ _ _ ih => exact ih.symm
  | trans _ _ _ _ _ ihxy ihyz => exact ihxy.trans ihyz

theorem isPossible_addAll_bounds (hs : s.isPossible = true)
    (hfree : ∀ ψ ∈ s, ψ.mentions target = false) (hlit : target.isLiteral = false)
    {l : List Fact} (hl : ∀ ψ ∈ l, ψ.op ≠ .eq ∧ ψ.left = target ∧ ψ.right.isLiteral = true) :
    (s.addAll l).isPossible = true := by
  have hequates : ∀ x y, (s.addAll l).Equates x y → s.Equates x y := by
    rintro x y ⟨ψ, hψ, hop, hleft, hright⟩
    rcases mem_addAll.1 hψ with hψ | ⟨hψ, -⟩
    · exact ⟨ψ, hψ, hop, hleft, hright⟩
    · exact absurd hop (hl ψ hψ).1
  have hchains : ∀ {x y}, EqvGen (s.addAll l).Equates x y → EqvGen s.Equates x y :=
    fun h => h.mono hequates
  have hapart : ∀ ψ ∈ l, ∀ y : Expr, y.isLiteral = true →
      ¬ EqvGen (s.addAll l).Equates ψ.left y := by
    intro ψ hψ y hy hchain
    have heq := (eq_of_eqvGen_of_not_mentions hfree (hchains hchain)).1 (hl ψ hψ).2.1
    rw [heq, hlit] at hy
    cases hy
  apply isPossible_of_not_contradicts
  intro hcontra
  have hnot : ¬ s.Contradicts := fun h => by
    rw [h.isPossible_eq_false] at hs
    cases hs
  cases hcontra with
  | literals hchain hne => exact hnot (.literals (hchains hchain) hne)
  | values hψ hleft hright hfails =>
    rcases mem_addAll.1 hψ with hψ | ⟨hψ, -⟩
    · exact hnot (.values hψ (hchains hleft) (hchains hright) hfails)
    · exact hapart _ hψ _ rfl hleft
  | sides hψ hop hchain =>
    rcases mem_addAll.1 hψ with hψ | ⟨hψ, -⟩
    · exact hnot (.sides hψ hop (hchains hchain))
    · exact hapart _ hψ _ (hl _ hψ).2.2 hchain

theorem bound_of_mem_movedBounds (hs : s.isPossible = true) {operand : Expr} {op : BinaryOp}
    {n : Int} (hnone : s.constantOf operand = none) (hcanonical : target.IsCanonical)
    (hφ : φ ∈ s.movedBounds target op operand n) :
    φ.op ≠ .eq ∧ φ.left = target ∧ φ.right.isLiteral = true := by
  refine ⟨op_ne_of_mem_movedBounds hs hnone hφ, ?_⟩
  obtain ⟨ψ, -, hψ⟩ := List.mem_filterMap.1 hφ
  simp only [Option.bind_eq_bind, Option.bind_eq_some_iff, Option.pure_def,
    Option.some.injEq] at hψ
  obtain ⟨-, -, r, -, rfl⟩ := hψ
  have hliteral : target.isLiteral = true → (Expr.lit r).isLiteral = true := fun _ => rfl
  rw [(Fact.of_eq hcanonical (b := .lit r) trivial hliteral).1,
    (Fact.of_eq hcanonical (b := .lit r) trivial hliteral).2.2]
  exact ⟨rfl, rfl⟩

/-- A statement that makes use of bounds can be passed. -/
theorem isPossible_afterStatement_of_restsOnBounds (hs : s.isPossible = true) (kind : EdgeKind)
    {stmt : Statement} (hlit : ∀ x ∈ stmt.written, x.isLiteral = false) {operand : Expr}
    (h : s.RestsOnBounds stmt operand) : (s.afterStatement kind stmt).isPossible = true := by
  obtain ⟨target, op, n, hscales, hnone, -⟩ := h
  have hderived := hscales.derived_eq s
  rw [hnone] at hderived
  have key : ∀ a b e, stmt = .assign e (.binary op a b) → target = e.simplify →
      (s.afterStatement kind stmt).isPossible = true := by
    rintro a b e rfl rfl
    have hne := hlit e.simplify (by simp [Statement.written])
    have hforget : (s.forget e.simplify).isPossible = true :=
      isPossible_of_subset (fun ψ hψ => (mem_forget.1 hψ).1) hs
    change ((s.forget e.simplify).addAll (s.derived (.assign e (.binary op a b)))).isPossible = true
    rw [hderived]
    exact isPossible_addAll_bounds hforget (fun ψ hψ => (mem_forget.1 hψ).2) hne fun ψ hψ =>
      bound_of_mem_movedBounds hs hnone e.isCanonical_simplify hψ
  cases hscales with
  | right => exact key _ _ _ rfl rfl
  | left => exact key _ _ _ rfl rfl

/-- What a statement adds mentions what it writes, or has only variables of its own. -/
theorem mem_or_vars_of_mem_afterStatement {kind : EdgeKind} {stmt : Statement}
    (hφ : φ ∈ s.afterStatement kind stmt) (hw : ∀ x ∈ stmt.written, φ.mentions x = false) :
    φ ∈ s ∨ ∀ x ∈ φ.vars, ∃ e ∈ stmt.exprs, x ∈ e.vars := by
  refine (mem_or_adds_of_mem_afterStatement hφ).imp_right fun hadds => ?_
  have hnew : ∀ {e y : Expr} {op : Comparison}, e.simplify ∈ stmt.written →
      φ ≠ Fact.of e.simplify op y := by
    rintro e y op he rfl
    have hself := (mentions_of.1 (hw _ he)).1
    rw [Expr.simplify_of_isCanonical e.isCanonical_simplify, Expr.mentions_self] at hself
    cases hself
  cases hadds with
  | use | cast | phi | number => exact absurd rfl (hnew (by simp [Statement.written]))
  | branch =>
    intro x hx
    rcases mem_vars_of.1 hx with hx | hx
    · exact ⟨_, by simp [Statement.exprs, Statement.reads], hx⟩
    · exact ⟨_, by simp [Statement.exprs, Statement.reads], hx⟩
  | label =>
    intro x hx
    rcases mem_vars_of.1 hx with hx | hx
    · exact ⟨_, by simp [Statement.exprs, Statement.reads], hx⟩
    · cases hx

/-- A renaming that leaves a fact without a variable of each new name has not changed it. -/
theorem substitute_of_values {r : Renaming} {e : Expr}
    (h : ∀ k a, r.get? k = some a → ∃ x ∈ a.vars, x ∉ (e.substitute r.get?).vars) :
    e.substitute r.get? = e := by
  have step : ∀ e : Expr, (∀ k a, r.get? k = some a → ∃ x ∈ a.vars,
      x ∉ (e.substitute r.get?).vars) → r.get? e = none ∧ ∀ c ∈ e.children,
        ∀ k a, r.get? k = some a → ∃ x ∈ a.vars, x ∉ (c.substitute r.get?).vars := by
    intro e h
    have hnone : r.get? e = none := by
      cases he : r.get? e with
      | none => rfl
      | some a =>
        obtain ⟨x, hx, hnot⟩ := h e a he
        rw [substitute_of_get? he] at hnot
        exact absurd hx hnot
    refine ⟨hnone, fun c hc k a hk => ?_⟩
    obtain ⟨x, hx, hnot⟩ := h k a hk
    exact ⟨x, hx, fun hxc => hnot
      (Expr.mem_vars_of_mem_children (substitute_mem_children hnone hc) hxc)⟩
  induction e with
  | var x | ssa x n | lit n | text s => exact substitute_leaf (step _ h).1 rfl
  | addrOf e ih | deref e ih | field e f t ih =>
    obtain ⟨hnone, hchildren⟩ := step _ h
    rw [Expr.substitute, hnone, Option.getD_none, ih (hchildren e (by simp [Expr.children]))]
  | index b i t ihb ihi =>
    obtain ⟨hnone, hchildren⟩ := step _ h
    rw [Expr.substitute, hnone, Option.getD_none, ihb (hchildren b (by simp [Expr.children])),
      ihi (hchildren i (by simp [Expr.children]))]

variable {caller : FunctionId} {callee : Function} {result : Option Expr} {args : List Expr}

/-- A fact that is not about what a call passes and assigns comes back only as it was. -/
theorem mem_of_mem_leave (hφ : φ ∈ s.leave caller callee result args)
    (hw : ∀ x ∈ writtenBy result args, φ.mentions x = false)
    (hnames : ∀ a ∈ args ++ result.toList, ∃ x ∈ a.vars, x ∉ φ.vars) : φ ∈ s := by
  have hvalues : ∀ k a, (exitRenaming callee result args).get? k = some a →
      ∃ x ∈ a.vars, x ∉ φ.vars := by
    intro k a hk
    rcases exitRenaming_spec hk with hmem | ⟨-, -, hres⟩
    · obtain ⟨b, hb, rfl⟩ := List.mem_map.1 (List.of_mem_zip hmem).2
      rw [Expr.vars_simplify]
      exact hnames b (List.mem_append.2 (.inl hb))
    · obtain ⟨b, rfl, rfl⟩ := Option.map_eq_some_iff.1 hres
      rw [Expr.vars_simplify]
      exact hnames b (by simp)
  have hP : ∀ ψ : Fact, ψ.isTautology = true → ψ = φ → φ ∈ s := by
    rintro ψ htaut rfl
    exact absurd rfl (ne_of_isTautology hφ ψ htaut)
  refine (forall_mem_leave hP).2 ⟨(forall_mem_bindResult hP).2 ?_, ?_⟩ φ hφ rfl
  · rintro x y hx - z - rfl
    obtain ⟨b, rfl, rfl⟩ := Option.map_eq_some_iff.1 hx
    have hself := (mentions_of.1 (hw b.simplify (by simp [writtenBy]))).1
    rw [Expr.simplify_of_isCanonical b.isCanonical_simplify, Expr.mentions_self] at hself
    cases hself
  · rintro ψ hψ χ hrename - rfl
    obtain ⟨-, -, rfl⟩ := rename?_eq_some.1 hrename
    have hleft := substitute_of_values fun k a hk => by
      obtain ⟨x, hx, hnot⟩ := hvalues k a hk
      exact ⟨x, hx, fun h => hnot (mem_vars_of.2 (.inl h))⟩
    have hright := substitute_of_values fun k a hk => by
      obtain ⟨x, hx, hnot⟩ := hvalues k a hk
      exact ⟨x, hx, fun h => hnot (mem_vars_of.2 (.inr h))⟩
    rw [hleft, hright, ψ.of_self]
    exact (mem_sparing.1 hψ).1

theorem exists_var_of_isOwnedBy {f g : FunctionId} (howned : isOwnedBy f φ = true) (hne : g ≠ f) :
    ∃ x ∈ φ.vars, x.owner = some f ∧ ∀ e : Expr, e.IsWithin (some g) → x ∉ e.vars := by
  obtain ⟨x, hx⟩ : ∃ x, x ∈ φ.vars :=
    List.exists_mem_of_ne_nil _ (by simpa [isOwnedBy] using (Bool.and_eq_true_iff.1 howned).1)
  have howner := owner_of_isOwnedBy howned x hx
  refine ⟨x, hx, howner, fun e he hxe => ?_⟩
  rcases he x hxe with h | h
  · cases h.symm.trans howner
  · exact hne (Option.some.inj (h.symm.trans howner))

/-- At the return site of a call in one function no fact of another alone is known. -/
theorem not_mem_leave_of_isOwnedBy {f : FunctionId} (howned : isOwnedBy f φ = true)
    (hne : caller ≠ f) (hscope : ∀ a ∈ args ++ result.toList, a.IsWithin (some caller)) :
    φ ∉ s.leave caller callee result args := by
  obtain ⟨x, hx, howner, hother⟩ := exists_var_of_isOwnedBy howned hne
  intro hφ
  refine (forall_mem_leave (P := (· ≠ φ)) (ne_of_isTautology hφ)).2 ⟨?_, ?_⟩ φ hφ rfl
  · refine (forall_mem_bindResult (P := (· ≠ φ)) (ne_of_isTautology hφ)).2 ?_
    rintro y k hy - z hz rfl
    have hwithin : ∀ a ∈ args ++ result.toList, x ∉ a.simplify.vars := by
      intro a ha
      rw [Expr.vars_simplify]
      exact hother a (hscope a ha)
    rcases mem_vars_of.1 hx with hxy | hxz
    · obtain ⟨b, rfl, rfl⟩ := Option.map_eq_some_iff.1 hy
      exact hwithin b (by simp) hxy
    · rcases hz with hz | ⟨-, hlit, rfl⟩
      · obtain ⟨b, hb, rfl⟩ := List.mem_map.1 (List.of_mem_zip (argsBack_spec hz)).2
        exact hwithin b (List.mem_append.2 (.inl hb)) hxz
      · obtain ⟨n, hn⟩ := Option.isSome_iff_exists.1 hlit
        obtain rfl := Expr.literal?_eq_some.1 hn
        cases hxz
  · rintro ψ - χ - hvisible rfl
    have hseen : x.owner = none ∨ x.owner = some caller := by
      simpa using List.all_eq_true.1 hvisible x hx
    rw [howner] at hseen
    simp [Ne.symm hne] at hseen

end Facts

/-- The node that an edge goes on from in its own function: where a call returns, the call. -/
def Edge.origin (edge : Edge) : NodeId :=
  match edge.kind with
  | .leave c => c
  | _ => edge.source

theorem Edge.origin_of_within {edge : Edge} (h : edge.kind.isInterprocedural = false) :
    edge.origin = edge.source := by
  unfold origin
  split
  · rename_i hk
    rw [hk] at h
    cases h
  · rfl

namespace Program

variable {p : Program} {pass : String} {limit : Nat} {e : EdgeId} {s t t' : Facts}

theorem factsAfter_of_stmtAlong {stmt : Statement} (h : p.stmtAlong e = some stmt) :
    ∃ kind, ∀ s, p.factsAfter s e = some (s.afterStatement kind stmt) := by
  simp only [stmtAlong, Option.bind_eq_bind, Option.bind_eq_some_iff] at h
  obtain ⟨edge, hedge, hstmt⟩ := h
  split at hstmt
  · cases hstmt
  · rename_i hkind
    refine ⟨edge.kind, fun s => ?_⟩
    cases hk : edge.kind <;> simp [hk, EdgeKind.isInterprocedural] at hkind <;>
      simp [factsAfter, hedge, hk, hstmt]

/-- An edge that can be taken with facts can be taken with fewer, unless it assigns to a literal. -/
theorem exists_factsFlow_of_subset (h : s ⊆ t) (hs : s.isPossible = true) (ht : t.isPossible = true)
    (hlit : ∀ stmt, p.stmtAlong e = some stmt → ∀ x ∈ stmt.written, x.isLiteral = false)
    (hflow : (p.factsFlow t e).1 = some t') : ∃ s', (p.factsFlow s e).1 = some s' := by
  by_cases hrest : ∃ operand, p.RestsOnBounds s e operand
  · obtain ⟨operand, stmt, hstmt, hrest⟩ := hrest
    obtain ⟨kind, hafter⟩ := factsAfter_of_stmtAlong hstmt
    have hpossible :=
      Facts.isPossible_afterStatement_of_restsOnBounds hs kind (hlit stmt hstmt) hrest
    exact ⟨_, factsFlow_eq_some.2 ⟨hafter s, hpossible⟩⟩
  · have hderived := (derivedAlong_subset_iff h ht).2 fun operand hr => absurd ⟨operand, hr⟩ hrest
    obtain ⟨s', hs', -⟩ := ((flowsUnder_iff h).2 (.inr hderived)).2 t' hflow
    exact ⟨s', hs'⟩

/-- Whether an edge is taken in a solution and brings facts to its target. -/
def Brings (p : Program) (sol : FactsSolution) (edge : Edge) (t : Facts) : Prop :=
  ∃ e s, p.edges[e]? = some edge ∧ sol.value edge.source = some s ∧
    (p.factsFlow s e).1 = some t

/-- Where in a function a fact of another function is lost. -/
inductive Forgets (p : Program) (sol : FactsSolution) (f g : FunctionId) (φ : Fact) : NodeId → Prop
  /-- The function is entered without the fact, and not by a call in the fact's function. -/
  | entered {edge : Edge} {t : Facts} : p.Brings sol edge t →
      p.functionIdOf edge.target = some g →
      edge.kind = .root ∨ edge.kind = .enter ∧ p.functionIdOf edge.source ≠ some f →
      φ ∉ t → p.Forgets sol f g φ edge.target
  /-- A call in the function returns. -/
  | returned {edge : Edge} {t : Facts} {c : NodeId} : p.Brings sol edge t →
      p.functionIdOf edge.target = some g → edge.kind = .leave c → p.Forgets sol f g φ edge.target
  | along {edge : Edge} {t : Facts} : p.Brings sol edge t →
      p.functionIdOf edge.target = some g → edge.kind.isInterprocedural = false →
      p.Forgets sol f g φ edge.source → p.Forgets sol f g φ edge.target

/-- Whether a call of a function returns to a node from an exit where a fact is lost. -/
def ReturnsWithout (p : Program) (sol : FactsSolution) (f g : FunctionId) (φ : Fact)
    (n : NodeId) : Prop :=
  ∃ edge t c, p.Brings sol edge t ∧ edge.target = n ∧ edge.kind = .leave c ∧
    p.Forgets sol f g φ edge.source

/-- Whether the call at a node passes and assigns only what has a variable that a fact does
not have. -/
def NamesOthers (p : Program) (c : NodeId) (φ : Fact) : Prop :=
  ∀ result args, p.callAt c = some (result, args) →
    ∀ a ∈ args ++ result.toList, ∃ x ∈ a.vars, x ∉ φ.vars

/-- A fact of a function alone that is known at its calls of another and that no statement
involved writes to. -/
structure RidesThrough (p : Program) (sol : FactsSolution) (f : FunctionId) (callee : Function)
    (φ : Fact) : Prop where
  owned : Facts.isOwnedBy f φ = true
  other : f ≠ callee.id
  known : ∀ c s, p.CallsAt f callee.id c → sol.value c = some s → φ ∈ s
  spared : ∀ c, p.CallsAt f callee.id c → p.Spares c φ
  /-- The callee is reached from the root, by calls, where its own calls return, and along its
  own edges. -/
  edges : ∀ edge ∈ p.edges, p.functionIdOf edge.target = some callee.id →
    edge.kind = .root ∨ edge.kind = .enter ∨ p.functionIdOf edge.origin = some callee.id
  body : ∀ n, p.functionIdOf n = some callee.id → p.Spares n φ
  within : ∀ n stmt, p.functionIdOf n = some callee.id → p.stmtAt n = some stmt →
    (∀ e ∈ stmt.exprs, e.IsWithin (some callee.id)) ∧ ∀ x ∈ stmt.written, x.isLiteral = false
  returned : ∀ y, callee.returned = some y → y.isLiteral = false → φ.mentions y = false

variable {sol : FactsSolution} {f : FunctionId} {callee : Function} {φ : Fact} {edge : Edge}
  {u v : Facts}

/-- What is taken on the way to a solution is taken in it, and brings no more between
functions. -/
theorem exists_brings (hs : p.factsProblem.solve pass limit = .ok sol)
    (hedge : p.edges[e]? = some edge) (hu : sol.value edge.source = some u) (huv : u ⊆ v)
    (hv : v.isPossible = true) (hflow : (p.factsFlow v e).1 = some t)
    (hlit : edge.kind.isInterprocedural = false → ∀ stmt, p.stmtAt edge.source = some stmt →
      ∀ x ∈ stmt.written, x.isLiteral = false) :
    ∃ t', p.Brings sol edge t' ∧ (edge.kind.isInterprocedural = true → t' ⊆ t) := by
  cases hkind : edge.kind.isInterprocedural with
  | true =>
    have hnone : p.stmtAlong e = none := by simp [stmtAlong, hedge, hkind]
    have hflows : p.FlowsUnder e u v := by
      refine (flowsUnder_iff huv).2 (.inr ?_)
      rw [derivedAlong_eq_nil hnone]
      exact fun _ h => absurd h List.not_mem_nil
    obtain ⟨t', ht', hsub⟩ := hflows.2 t hflow
    exact ⟨t', ⟨e, u, hedge, hu, ht'⟩, fun _ => hsub⟩
  | false =>
    have halong : p.stmtAlong e = p.stmtAt edge.source := by simp [stmtAlong, hedge, hkind]
    obtain ⟨t', ht'⟩ := exists_factsFlow_of_subset huv (isPossible_of_value hs hu) hv
      (fun stmt hstmt => hlit hkind stmt (halong ▸ hstmt)) hflow
    exact ⟨t', ⟨e, u, hedge, hu, ht'⟩, fun h => absurd h Bool.false_ne_true⟩

namespace RidesThrough

theorem functionIdOf_origin (h : p.RidesThrough sol f callee φ) (hedge : edge ∈ p.edges)
    (htarget : p.functionIdOf edge.target = some callee.id) (hroot : edge.kind ≠ .root)
    (henter : edge.kind ≠ .enter) : p.functionIdOf edge.origin = some callee.id :=
  ((h.edges edge hedge htarget).resolve_left hroot).resolve_left henter

theorem source_of_within (h : p.RidesThrough sol f callee φ) (hedge : edge ∈ p.edges)
    (htarget : p.functionIdOf edge.target = some callee.id)
    (hkind : edge.kind.isInterprocedural = false) :
    p.functionIdOf edge.source = some callee.id := by
  rw [← Edge.origin_of_within hkind]
  apply h.functionIdOf_origin hedge htarget <;>
  · intro hk
    rw [hk] at hkind
    cases hkind

theorem function_of_leave (h : p.RidesThrough sol f callee φ) (hedge : edge ∈ p.edges)
    (htarget : p.functionIdOf edge.target = some callee.id) {c : NodeId}
    (hkind : edge.kind = .leave c) : p.functionIdOf c = some callee.id := by
  have horigin := h.functionIdOf_origin hedge htarget (by simp [hkind]) (by simp [hkind])
  rwa [Edge.origin, hkind] at horigin

theorem mem_of_target (h : p.RidesThrough sol f callee φ)
    (hcallee : p.functions[callee.id]? = some callee)
    (hs : p.factsProblem.solve pass limit = .ok sol)
    (hedge : p.edges[e]? = some edge) (hu : sol.value edge.source = some u) (huv : u ⊆ v)
    (hv : v.isPossible = true) (hflow : (p.factsFlow v e).1 = some t)
    (htarget : p.functionIdOf edge.target = some callee.id)
    (hnot : ¬ p.Forgets sol f callee.id φ edge.target)
    (hbody : p.functionIdOf edge.source = some callee.id →
      ¬ p.Forgets sol f callee.id φ edge.source → φ ∈ v) : φ ∈ t := by
  have hmem := Array.mem_of_getElem? hedge
  have hafter := (factsFlow_eq_some.1 hflow).1
  have hlit : edge.kind.isInterprocedural = false → ∀ stmt, p.stmtAt edge.source = some stmt →
      ∀ x ∈ stmt.written, x.isLiteral = false := by
    intro hkind stmt hstmt
    exact (h.within _ stmt (h.source_of_within hmem htarget hkind) hstmt).2
  obtain ⟨t', hbrings, hsub⟩ := exists_brings hs hedge hu huv hv hflow hlit
  have hentered : edge.kind = .root ∨ edge.kind = .enter ∧ p.functionIdOf edge.source ≠ some f →
      φ ∈ t := by
    intro hkind
    by_contra hφ
    have hinter : edge.kind.isInterprocedural = true := by
      rcases hkind with hk | ⟨hk, -⟩ <;> rw [hk] <;> rfl
    exact hnot (.entered hbrings htarget hkind fun hφ' => hφ (hsub hinter φ hφ'))
  cases hkind : edge.kind with
  | root => exact hentered (.inl hkind)
  | enter =>
    by_cases hcaller : p.functionIdOf edge.source = some f
    · obtain ⟨g, caller, result, args, hg, hcaller', hcall, rfl⟩ :=
        factsAfter_of_enter hedge hkind hafter
      obtain rfl : callee = g := Option.some.inj ((functionOf_eq htarget hcallee).symm.trans hg)
      obtain rfl : f = caller := Option.some.inj (hcaller.symm.trans hcaller')
      have hc : p.CallsAt f callee.id edge.source := ⟨hcaller, edge, hmem, rfl, hkind, htarget⟩
      have hwritten := (h.spared _ hc).of_callAt hcall
      exact Facts.mem_enter h.owned h.other (huv φ (h.known _ u hc hu))
        fun x hx => hwritten x (List.mem_append.2 (.inl hx))
    · exact hentered (.inr ⟨hkind, hcaller⟩)
  | leave c => exact absurd (.returned hbrings htarget hkind) hnot
  | flow | callToReturn =>
    have hwithin : edge.kind.isInterprocedural = false := by rw [hkind]; rfl
    have hsource := h.source_of_within hmem htarget hwithin
    have hsafe : ¬ p.Forgets sol f callee.id φ edge.source :=
      fun hf => hnot (.along hbrings htarget hwithin hf)
    exact mem_factsAfter_of_spares hedge hwithin (h.body _ hsource) (hbody hsource hsafe) hafter

theorem mem_of_returnsFrom (h : p.RidesThrough sol f callee φ) (hwf : p.WellFormed)
    (hcallee : p.functions[callee.id]? = some callee)
    (hs : p.factsProblem.solve pass limit = .ok sol)
    (hedge : p.edges[e]? = some edge) (hu : sol.value edge.source = some u) (huv : u ⊆ v)
    (hv : v.isPossible = true) (hflow : (p.factsFlow v e).1 = some t)
    (hreturn : p.ReturnsFrom f callee.id edge.target)
    (hnot : ¬ p.ReturnsWithout sol f callee.id φ edge.target)
    (hbody : p.functionIdOf edge.source = some callee.id →
      ¬ p.Forgets sol f callee.id φ edge.source → φ ∈ v) : φ ∈ t := by
  have hafter := (factsFlow_eq_some.1 hflow).1
  rcases hreturn.2 edge (Array.mem_of_getElem? hedge) rfl with ⟨hkind, hc⟩ | ⟨c, hkind, hexit, hc⟩
  · exact mem_factsAfter_of_spares hedge (by rw [hkind]; rfl) (h.spared _ hc)
      (huv φ (h.known _ u hc hu)) hafter
  · obtain ⟨t', hbrings, -⟩ := exists_brings hs hedge hu huv hv hflow fun hk => by
      rw [hkind] at hk
      cases hk
    have hsafe : ¬ p.Forgets sol f callee.id φ edge.source :=
      fun hf => hnot ⟨edge, t', c, hbrings, rfl, hkind, hf⟩
    obtain ⟨g, caller, result, args, hg, hcaller, hcall, rfl⟩ :=
      factsAfter_of_leave hedge hkind hafter
    obtain rfl : callee = g := Option.some.inj ((functionOf_eq hexit hcallee).symm.trans hg)
    obtain rfl : f = caller := Option.some.inj (hc.1.symm.trans hcaller)
    have hparams : ∀ x ∈ callee.params, x.owner = some callee.id :=
      fun x hx => (hwf.functions _ _ hcallee).2 x (List.mem_append.2 (.inl hx))
    exact Facts.mem_leave h.owned h.other hparams h.returned (hbody hexit hsafe)
      ((h.spared _ hc).of_callAt hcall)

/-- What the callee does not lose is known in it, and where its calls return. -/
theorem mem_of_value (h : p.RidesThrough sol f callee φ) (hwf : p.WellFormed)
    (hcallee : p.functions[callee.id]? = some callee)
    (hs : p.factsProblem.solve pass limit = .ok sol) {n : NodeId} (hn : sol.value n = some s)
    (hsafe : p.functionIdOf n = some callee.id ∧ ¬ p.Forgets sol f callee.id φ n ∨
      p.ReturnsFrom f callee.id n ∧ ¬ p.ReturnsWithout sol f callee.id φ n) : φ ∈ s := by
  have hpres : p.factsProblem.PreservesWithin
      (fun m s => Reaches (fun s t : Facts => ∀ ψ ∈ t, ψ ∈ s) sol.values m s)
      fun m s => s.isPossible = true ∧
        (p.functionIdOf m = some callee.id ∧ ¬ p.Forgets sol f callee.id φ m ∨
          p.ReturnsFrom f callee.id m ∧ ¬ p.ReturnsWithout sol f callee.id φ m → φ ∈ s) := by
    refine ⟨fun m hm => ⟨Facts.isPossible_empty, ?_⟩, fun {m v x t} hbound hP hx ht => ?_,
      fun {m s t} hs ht => ⟨Facts.isPossible_meet hs.1, fun hsafe =>
        Facts.mem_meet.2 ⟨hs.2 hsafe, ht.2 hsafe⟩⟩⟩
    · obtain rfl := List.mem_singleton.1 hm
      rintro (⟨hroot, -⟩ | ⟨⟨hroot, -⟩, -⟩) <;> cases hwf.functionIdOf_root.symm.trans hroot
    · obtain ⟨edge, hedge, rfl, htarget⟩ := mem_successors.1 hx
      obtain ⟨u, hu, huv⟩ := hbound
      have hbody : p.functionIdOf edge.source = some callee.id →
          ¬ p.Forgets sol f callee.id φ edge.source → φ ∈ v := fun hin hnot =>
        hP.2 (.inl ⟨hin, hnot⟩)
      refine ⟨(factsFlow_eq_some.1 ht).2, ?_⟩
      rw [← htarget]
      rintro (⟨hin, hnot⟩ | ⟨hret, hnot⟩)
      · exact h.mem_of_target hcallee hs hedge hu huv hP.1 ht hin hnot hbody
      · exact h.mem_of_returnsFrom hwf hcallee hs hedge hu huv hP.1 ht hret hnot hbody
  exact (hpres.solve (Facts.rises_factsProblem p) hs (fun _ _ hr => hr) hn).2 hsafe

/-- What the callee loses at a node is not known there. -/
theorem not_mem_of_forgets (h : p.RidesThrough sol f callee φ)
    (hs : p.factsProblem.solve pass limit = .ok sol) {n : NodeId}
    (hforgets : p.Forgets sol f callee.id φ n) (hn : sol.value n = some s) : φ ∉ s := by
  induction hforgets generalizing s with
  | entered hbrings _ _ hnot =>
    obtain ⟨e, u, hedge, hu, ht⟩ := hbrings
    exact fun hφ => hnot (subset_of_value hs hedge hu ht hn φ hφ)
  | @returned edge t c hbrings htarget hkind =>
    obtain ⟨e, u, hedge, hu, ht⟩ := hbrings
    intro hφ
    have hφt := subset_of_value hs hedge hu ht hn φ hφ
    obtain ⟨g, caller, result, args, -, hcaller, hcall, rfl⟩ :=
      factsAfter_of_leave hedge hkind (factsFlow_eq_some.1 ht).1
    have hc := h.function_of_leave (Array.mem_of_getElem? hedge) htarget hkind
    obtain rfl := Option.some.inj (hc.symm.trans hcaller)
    obtain ⟨name, hstmt⟩ := exists_call_of_callAt hcall
    refine Facts.not_mem_leave_of_isOwnedBy h.owned h.other.symm (fun a ha => ?_) hφt
    refine (h.within c _ hc hstmt).1 a ?_
    simpa [Statement.exprs, Statement.defined?, Statement.reads, or_comm] using ha
  | @along edge t hbrings htarget hkind _ ih =>
    obtain ⟨e, u, hedge, hu, ht⟩ := hbrings
    intro hφ
    have hφt := subset_of_value hs hedge hu ht hn φ hφ
    have hsource := h.source_of_within (Array.mem_of_getElem? hedge) htarget hkind
    rcases factsAfter_of_within hedge hkind (factsFlow_eq_some.1 ht).1 with
      ⟨-, rfl⟩ | ⟨stmt, hstmt, rfl⟩
    · exact ih hu hφt
    · rcases Facts.mem_or_vars_of_mem_afterStatement hφt (h.body _ hsource stmt hstmt) with
        hφu | hvars
      · exact ih hu hφu
      · obtain ⟨x, hx, -, hother⟩ := Facts.exists_var_of_isOwnedBy h.owned h.other.symm
        obtain ⟨a, ha, hxa⟩ := hvars x hx
        exact hother a ((h.within _ stmt hsource hstmt).1 a ha) hxa

/-- Where a call returns from an exit without the fact, the fact is not known. -/
theorem not_mem_of_returnsWithout (h : p.RidesThrough sol f callee φ)
    (hs : p.factsProblem.solve pass limit = .ok sol) {n : NodeId}
    (hreturn : p.ReturnsFrom f callee.id n)
    (hnames : ∀ c, p.CallsAt f callee.id c → p.NamesOthers c φ)
    (hwithout : p.ReturnsWithout sol f callee.id φ n) (hn : sol.value n = some s) : φ ∉ s := by
  obtain ⟨edge, t, c, ⟨e, u, hedge, hu, ht⟩, rfl, hkind, hforgets⟩ := hwithout
  intro hφ
  have hφt := subset_of_value hs hedge hu ht hn φ hφ
  rcases hreturn.2 edge (Array.mem_of_getElem? hedge) rfl with ⟨hk, -⟩ | ⟨c', hk, hexit, hc⟩
  · cases hkind.symm.trans hk
  · obtain ⟨g, caller, result, args, hg, -, hcall, rfl⟩ :=
      factsAfter_of_leave hedge hk (factsFlow_eq_some.1 ht).1
    have hφu := Facts.mem_of_mem_leave hφt ((h.spared _ hc).of_callAt hcall)
      (hnames _ hc result args hcall)
    exact h.not_mem_of_forgets hs hforgets hu hφu

end RidesThrough

/-- A fact of a function alone is known at a node of a callee exactly if the callee does not lose
it on the way there. It is known where the function's calls return, unless one returns from an
exit without it; and if these calls pass and assign other things, then not. -/
theorem factsProblem_ridesThrough (hwf : p.WellFormed)
    (hs : p.factsProblem.solve pass limit = .ok sol)
    (hcallee : p.functions[callee.id]? = some callee) (h : p.RidesThrough sol f callee φ) :
    (∀ n s, p.functionIdOf n = some callee.id → sol.value n = some s →
      (φ ∈ s ↔ ¬ p.Forgets sol f callee.id φ n)) ∧
    ∀ n s, p.ReturnsFrom f callee.id n → sol.value n = some s →
      (¬ p.ReturnsWithout sol f callee.id φ n → φ ∈ s) ∧
      ((∀ c, p.CallsAt f callee.id c → p.NamesOthers c φ) →
        p.ReturnsWithout sol f callee.id φ n → φ ∉ s) := by
  refine ⟨fun n s hin hn => ⟨fun hφ hforgets => ?_, fun hnot => ?_⟩, fun n s hret hn =>
    ⟨fun hnot => ?_, fun hnames hwithout => ?_⟩⟩
  · exact h.not_mem_of_forgets hs hforgets hn hφ
  · exact h.mem_of_value hwf hcallee hs hn (.inl ⟨hin, hnot⟩)
  · exact h.mem_of_value hwf hcallee hs hn (.inr ⟨hret, hnot⟩)
  · exact h.not_mem_of_returnsWithout hs hret hnames hwithout hn

section Relaying

def relayFunction : Function := ⟨1, "relay", [], [], 3, 4, none, none, none⟩

def leafFunction : Function :=
  ⟨2, "leaf", [], [⟨"y", some 2, .localVar, .integer⟩], 5, 6, none, none, none⟩

/-- The program `main() { x = 5; leaf(); relay(); }` with `relay() { leaf(); }` and
`leaf() { y = 7; }`. -/
def relaying : Program :=
  let x : Variable := ⟨"x", some 0, .localVar, .integer⟩
  let y : Variable := ⟨"y", some 2, .localVar, .integer⟩
  let node (f : FunctionId) (kind : NodeKind) : Node := ⟨some f, kind, none, none⟩
  let stmt (f : FunctionId) (kind : NodeKind) (stmt : Statement) : Node :=
    ⟨some f, kind, some stmt, none⟩
  { nodes := #[⟨none, .root, none, none⟩, node 0 .entry, node 0 .exit, node 1 .entry,
      node 1 .exit, node 2 .entry, node 2 .exit,
      stmt 0 .statement (.assign (.var x) (.use (.lit 5))),
      stmt 0 .call (.call none "leaf" []), node 0 .returnSite,
      stmt 0 .call (.call none "relay" []), node 0 .returnSite,
      stmt 1 .call (.call none "leaf" []), node 1 .returnSite,
      stmt 2 .statement (.assign (.var y) (.use (.lit 7)))]
    edges := #[⟨8, 5, .enter⟩, ⟨8, 9, .callToReturn⟩, ⟨6, 9, .leave 8⟩,
      ⟨10, 3, .enter⟩, ⟨10, 11, .callToReturn⟩, ⟨4, 11, .leave 10⟩,
      ⟨12, 5, .enter⟩, ⟨12, 13, .callToReturn⟩, ⟨6, 13, .leave 12⟩,
      ⟨1, 7, .flow .always⟩, ⟨7, 8, .flow .always⟩, ⟨9, 10, .flow .always⟩,
      ⟨11, 2, .flow .always⟩, ⟨3, 12, .flow .always⟩, ⟨13, 4, .flow .always⟩,
      ⟨5, 14, .flow .always⟩, ⟨14, 6, .flow .always⟩, ⟨0, 1, .root⟩]
    functions := #[⟨0, "main", [], [x], 1, 2, none, none, none⟩, relayFunction, leafFunction]
    globals := [] }

def assigned : Fact := .of (.var ⟨"x", some 0, .localVar, .integer⟩) .eq (.lit 5)

theorem wellFormed_relaying : relaying.WellFormed := by
  decide

theorem callsAt_relaying {callee : FunctionId} {c : NodeId} (h : relaying.CallsAt 0 callee c) :
    callee = 2 ∧ c = 8 ∨ callee = 1 ∧ c = 10 := by
  obtain ⟨hcaller, edge, hedge, rfl, hkind, htarget⟩ := h
  have hcalls : ∀ edge ∈ relaying.edges, edge.kind = .enter →
      relaying.functionIdOf edge.source = some 0 →
      relaying.functionIdOf edge.target = some 2 ∧ edge.source = 8 ∨
        relaying.functionIdOf edge.target = some 1 ∧ edge.source = 10 := by
    decide
  rcases hcalls edge hedge hkind hcaller with ⟨hf, hc⟩ | ⟨hf, hc⟩
  · exact .inl ⟨Option.some.inj (htarget.symm.trans hf), hc⟩
  · exact .inr ⟨Option.some.inj (htarget.symm.trans hf), hc⟩

theorem returnsFrom_relaying :
    relaying.ReturnsFrom 0 2 9 ∧ relaying.ReturnsFrom 0 1 11 := by
  have hleaf : relaying.CallsAt 0 2 8 :=
    ⟨rfl, ⟨8, 5, .enter⟩, by simp [relaying], rfl, rfl, rfl⟩
  have hrelay : relaying.CallsAt 0 1 10 :=
    ⟨rfl, ⟨10, 3, .enter⟩, by simp [relaying], rfl, rfl, rfl⟩
  exact ⟨returnsFrom_of_edges 6 hleaf rfl rfl (by decide),
    returnsFrom_of_edges 4 hrelay rfl rfl (by decide)⟩

theorem spares_relaying {n : NodeId} (hn : n ≠ 7) : relaying.Spares n assigned := by
  have hall : ∀ m < 15, m ≠ 7 → ∀ stmt ∈ relaying.stmtAt m,
      ∀ x ∈ stmt.written, assigned.mentions x = false := by
    decide
  intro stmt hstmt
  obtain ⟨node, hnode, -⟩ := Option.bind_eq_some_iff.1 hstmt
  obtain ⟨hlt, -⟩ := Array.getElem?_eq_some_iff.1 hnode
  exact hall n hlt hn stmt hstmt

theorem ridesThrough_relaying {sol : FactsSolution} {callee : Function}
    (hcallee : callee = relayFunction ∨ callee = leafFunction)
    (hknown : ∀ c ∈ [8, 10], ∀ s, sol.value c = some s → assigned ∈ s) :
    relaying.RidesThrough sol 0 callee assigned := by
  have hcalls : ∀ c, relaying.CallsAt 0 callee.id c → c ∈ [8, 10] := by
    intro c hc
    rcases callsAt_relaying hc with ⟨-, rfl⟩ | ⟨-, rfl⟩ <;> decide
  have hwithin : ∀ n < 15, relaying.functionIdOf n = some callee.id →
      n ≠ 7 ∧ ∀ stmt ∈ relaying.stmtAt n,
        (∀ e ∈ stmt.exprs, e.IsWithin (some callee.id)) ∧
          ∀ x ∈ stmt.written, x.isLiteral = false := by
    rcases hcallee with rfl | rfl <;> decide
  have hlt : ∀ n, relaying.functionIdOf n = some callee.id → n < 15 := by
    intro n hn
    obtain ⟨node, hnode, -⟩ := Option.bind_eq_some_iff.1 hn
    exact (Array.getElem?_eq_some_iff.1 hnode).1
  refine ⟨by decide, ?_, fun c s hc hv => hknown c (hcalls c hc) s hv, fun c hc => ?_, ?_,
    fun n hn => spares_relaying (hwithin n (hlt n hn) hn).1,
    fun n stmt hn hstmt => (hwithin n (hlt n hn) hn).2 stmt hstmt, ?_⟩
  · rcases hcallee with rfl | rfl <;> decide
  · exact spares_relaying fun h => absurd (h ▸ hcalls c hc) (by decide)
  · rcases hcallee with rfl | rfl <;> decide
  · rcases hcallee with rfl | rfl <;> exact nofun

theorem not_forgets_relaying {sol : FactsSolution}
    (hcalled : ∀ s, sol.value 12 = some s → ∀ t, (relaying.factsFlow s 6).1 = some t → assigned ∈ t)
    (n : NodeId) : ¬ relaying.Forgets sol 0 2 assigned n := by
  have hentries : ∀ e < 18, ∀ edge ∈ relaying.edges[e]?,
      relaying.functionIdOf edge.target = some 2 →
      edge.kind = .root ∨ edge.kind = .enter ∧ relaying.functionIdOf edge.source ≠ some 0 →
      e = 6 ∧ edge.source = 12 := by
    decide
  have hreturns : ∀ edge ∈ relaying.edges, relaying.functionIdOf edge.target = some 2 →
      edge.kind.isInterprocedural = true → edge.kind = .enter := by
    decide
  intro h
  induction h with
  | entered hbrings htarget hkind hnot =>
    obtain ⟨e, s, hedge, hv, ht⟩ := hbrings
    obtain ⟨he, -⟩ := Array.getElem?_eq_some_iff.1 hedge
    obtain ⟨rfl, hsource⟩ := hentries e he _ hedge htarget hkind
    exact hnot (hcalled s (hsource ▸ hv) _ ht)
  | returned hbrings htarget hkind =>
    obtain ⟨e, s, hedge, -⟩ := hbrings
    have henter := hreturns _ (Array.mem_of_getElem? hedge) htarget (by rw [hkind]; rfl)
    cases hkind.symm.trans henter
  | along _ _ _ _ ih => exact ih

/-- The fact is known where `leaf` returns to `main`, whoever else calls it, but not where `relay`
does, which makes a call. -/
theorem factsProblem_ridesThrough_relaying :
    ∃ sol s t, relaying.factsProblem.solve "facts" 100 = .ok sol ∧
      sol.value 9 = some s ∧ assigned ∈ s ∧ sol.value 11 = some t ∧ assigned ∉ t := by
  obtain ⟨sol, hs, htest⟩ := exists_eq_ok_of_any (relaying.factsProblem.solve "facts" 100)
    (fun sol => ((sol.value 9).isSome && (sol.value 11).isSome) &&
      (([8, 10].all fun n => (sol.value n).all (assigned ∈ ·)) &&
      (sol.value 12).all fun s => (relaying.factsFlow s 6).1.all (assigned ∈ ·)) &&
      [8, 14, 5].all fun e => relaying.edges[e]?.any fun edge =>
        (sol.value edge.source).any fun s => (relaying.factsFlow s e).1.isSome) (by decide +kernel)
  simp only [Bool.and_eq_true, List.all_eq_true, Option.any_eq_true, Option.all_eq_true,
    decide_eq_true_eq, Option.isSome_iff_exists] at htest
  obtain ⟨⟨⟨⟨s, hv⟩, t, hv'⟩, hknown, hcalled⟩, htaken⟩ := htest
  have hbrings : ∀ e ∈ [8, 14, 5], ∀ edge, relaying.edges[e]? = some edge →
      ∃ t, relaying.Brings sol edge t := by
    intro e he edge hedge
    obtain ⟨edge', hedge', s, hs, t, ht⟩ := htaken e he
    obtain rfl := Option.some.inj (hedge.symm.trans hedge')
    exact ⟨t, e, s, hedge, hs, ht⟩
  obtain ⟨_, hreturned⟩ := hbrings 8 (by decide) ⟨6, 13, .leave 12⟩ rfl
  obtain ⟨_, halong⟩ := hbrings 14 (by decide) ⟨13, 4, .flow .always⟩ rfl
  obtain ⟨_, hback⟩ := hbrings 5 (by decide) ⟨4, 11, .leave 10⟩ rfl
  have hwithout : relaying.ReturnsWithout sol 0 1 assigned 11 :=
    ⟨_, _, 10, hback, rfl, rfl, .along halong rfl rfl (.returned hreturned rfl rfl)⟩
  have hnot : ¬ relaying.ReturnsWithout sol 0 2 assigned 9 := by
    rintro ⟨_, _, _, -, -, -, hforgets⟩
    exact not_forgets_relaying hcalled _ hforgets
  have hnames : ∀ c, relaying.CallsAt 0 1 c → relaying.NamesOthers c assigned := by
    intro c hc result args hcall
    rcases callsAt_relaying hc with ⟨h, -⟩ | ⟨-, rfl⟩
    · cases h
    · cases hcall
      exact nofun
  have hleaf := factsProblem_ridesThrough wellFormed_relaying hs rfl
    (ridesThrough_relaying (.inr rfl) hknown)
  have hrelay := factsProblem_ridesThrough wellFormed_relaying hs rfl
    (ridesThrough_relaying (.inl rfl) hknown)
  exact ⟨sol, s, t, hs, hv, (hleaf.2 9 s returnsFrom_relaying.1 hv).1 hnot, hv',
    (hrelay.2 11 t returnsFrom_relaying.2 hv').2 hnames hwithout⟩

end Relaying

section Nesting

/-- The program `main() { x = 5; g(); }` with `g() { h(); }` and `h() { }`, entered at `main`. -/
def nesting : Program :=
  let x : Variable := ⟨"x", some 0, .localVar, .integer⟩
  let node (f : FunctionId) (kind : NodeKind) : Node := ⟨some f, kind, none, none⟩
  let stmt (f : FunctionId) (kind : NodeKind) (stmt : Statement) : Node :=
    ⟨some f, kind, some stmt, none⟩
  { nodes := #[⟨none, .root, none, none⟩, node 0 .entry, node 0 .exit, node 1 .entry,
      node 1 .exit, node 2 .entry, node 2 .exit,
      stmt 0 .statement (.assign (.var x) (.use (.lit 5))),
      stmt 0 .call (.call none "g" []), node 0 .returnSite,
      stmt 1 .call (.call none "h" []), node 1 .returnSite]
    edges := #[⟨8, 3, .enter⟩, ⟨8, 9, .callToReturn⟩, ⟨4, 9, .leave 8⟩,
      ⟨10, 5, .enter⟩, ⟨10, 11, .callToReturn⟩, ⟨6, 11, .leave 10⟩,
      ⟨1, 7, .flow .always⟩, ⟨7, 8, .flow .always⟩, ⟨9, 2, .flow .always⟩,
      ⟨3, 10, .flow .always⟩, ⟨11, 4, .flow .always⟩, ⟨5, 6, .flow .always⟩, ⟨0, 1, .root⟩]
    functions := #[⟨0, "main", [], [x], 1, 2, none, none, none⟩,
      ⟨1, "g", [], [], 3, 4, none, none, none⟩, ⟨2, "h", [], [], 5, 6, none, none, none⟩]
    globals := [] }

/-- The fact is known at the only call of `g`, which has nothing to write, and not where it returns,
because `g` calls `h`. -/
theorem nesting_forgets :
    ∃ sol s t, nesting.factsProblem.solve "facts" 100 = .ok sol ∧
      nesting.AcyclicCalls ∧ Facts.isOwnedBy 0 assigned = true ∧
      (∀ c, nesting.CallsAt 0 1 c → c = 8 ∧ nesting.callAt c = some (none, [])) ∧
      nesting.CallsAt 0 1 8 ∧ nesting.ReturnsFrom 0 1 9 ∧
      sol.value 8 = some s ∧ assigned ∈ s ∧ sol.value 9 = some t ∧ assigned ∉ t := by
  obtain ⟨sol, hs, htest⟩ := exists_eq_ok_of_any (nesting.factsProblem.solve "facts" 100)
    (fun sol => (sol.value 8).any (assigned ∈ ·) && (sol.value 9).any (assigned ∉ ·))
    (by decide +kernel)
  simp only [Bool.and_eq_true, Option.any_eq_true, decide_eq_true_eq] at htest
  obtain ⟨⟨s, hv, hmem⟩, t, hv', hnot⟩ := htest
  have hforward : nesting.CallsForward := by
    unfold CallsForward
    decide
  have hcall : nesting.CallsAt 0 1 8 := ⟨rfl, ⟨8, 3, .enter⟩, by simp [nesting], rfl, rfl, rfl⟩
  have hcalls : ∀ edge ∈ nesting.edges, edge.kind = .enter →
      nesting.functionIdOf edge.target = some 1 → edge.source = 8 := by
    decide
  have hreturns : nesting.ReturnsFrom 0 1 9 :=
    returnsFrom_of_edges 4 hcall rfl rfl (by decide)
  refine ⟨sol, s, t, hs, hforward.acyclicCalls, by decide, ?_, hcall, hreturns, hv, hmem, hv',
    hnot⟩
  rintro c ⟨-, edge, hedge, rfl, hkind, htarget⟩
  rw [hcalls edge hedge hkind htarget]
  exact ⟨rfl, rfl⟩

end Nesting

end Program

end Typestate

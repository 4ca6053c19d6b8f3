import Typestate.Proofs.Calls
import Typestate.Proofs.Facts.Entry
import Typestate.Proofs.Facts.Return
import Typestate.Proofs.Facts.Soundness
import Typestate.Proofs.Program

/-!
# A caller's facts during a call

A fact of a function alone enters the functions that it calls and comes back as it was. A
statement loses it only by writing what it mentions.
-/
namespace Typestate

/-- What a statement writes, itself or by what it calls, in canonical form. -/
def Statement.written : Statement → List Expr
  | .assign target _ | .phi target _ => [target.simplify]
  | .call result _ args => Facts.writtenBy result args
  | _ => []

namespace Facts

variable {s : Facts} {φ : Fact}

theorem substitute_of_not_mentions {r : Renaming} {e : Expr}
    (h : ∀ x a, r.get? x = some a → e.mentions x = false) : e.substitute r.get? = e := by
  have step : ∀ e : Expr, (∀ x a, r.get? x = some a → e.mentions x = false) →
      r.get? e = none ∧ ∀ c ∈ e.children, ∀ x a, r.get? x = some a → c.mentions x = false := by
    refine fun e h => ⟨?_, fun c hc x a hx => Expr.not_mentions_of_mem_children hc (h x a hx)⟩
    cases he : r.get? e with
    | none => rfl
    | some a => exact absurd (h e a he) (by simp)
  induction e with
  | var x | ssa x n | lit n | text s => exact substitute_leaf (step _ h).1 rfl
  | addrOf e ih | deref e ih | field e f t ih =>
    obtain ⟨hnone, hchildren⟩ := step _ h
    rw [Expr.substitute, hnone, Option.getD_none, ih (hchildren e (by simp [Expr.children]))]
  | index b i t ihb ihi =>
    obtain ⟨hnone, hchildren⟩ := step _ h
    rw [Expr.substitute, hnone, Option.getD_none, ihb (hchildren b (by simp [Expr.children])),
      ihi (hchildren i (by simp [Expr.children]))]

theorem mem_of_forall_ne (h : ¬ ∀ ψ ∈ s, ψ ≠ φ) : φ ∈ s :=
  Decidable.byContradiction fun hn => h fun _ hψ heq => hn (heq ▸ hψ)

theorem ne_of_isTautology (hφ : φ ∈ s) : ∀ ψ : Fact, ψ.isTautology = true → ψ ≠ φ := by
  rintro ψ hψ rfl
  rw [s.informative ψ hφ] at hψ
  cases hψ

/-- A statement keeps the facts that mention nothing it writes. -/
theorem mem_afterStatement {kind : EdgeKind} {stmt : Statement} (hφ : φ ∈ s)
    (hw : ∀ x ∈ stmt.written, φ.mentions x = false) : φ ∈ s.afterStatement kind stmt := by
  have hadd : ∀ {t : Facts} {ψ : Fact}, φ ∈ t → φ ∈ t.add ψ := fun h => mem_add.2 (.inr h)
  have haddAll : ∀ {l : List Fact} {t : Facts}, φ ∈ t → φ ∈ t.addAll l := by
    intro l
    induction l with
    | nil => exact fun h => h
    | cons ψ l ih => exact fun h => ih (hadd h)
  have hcopy : ∀ {target value : Expr}, φ.mentions target = false → φ ∈ s.copy target value := by
    intro target value ht
    unfold copy
    split
    · exact mem_forget.2 ⟨hφ, ht⟩
    · exact hadd (mem_forget.2 ⟨hφ, ht⟩)
  cases stmt with
  | assign target value =>
    have ht := hw target.simplify (by simp [Statement.written])
    have hforget : φ ∈ s.forget target.simplify := mem_forget.2 ⟨hφ, ht⟩
    unfold afterStatement assign
    dsimp only
    split
    · exact hcopy ht
    · exact hcopy ht
    · exact haddAll hforget
    · split
      · exact hadd hforget
      · exact hforget
    · exact hforget
  | phi target value => exact hcopy (hw _ (by simp [Statement.written]))
  | call result callee args =>
    refine mem_foldl_forget.2 ⟨?_, fun x hx => hw x (List.mem_append.2 (.inl hx))⟩
    cases result with
    | none => exact hφ
    | some e => exact mem_forget.2 ⟨hφ, hw _ (List.mem_append.2 (.inr (by simp)))⟩
  | cond a op b =>
    unfold afterStatement
    dsimp only
    split
    · exact hadd hφ
    · exact hadd hφ
    · exact hφ
  | switch index => exact haddAll hφ
  | ret value => exact hφ
  | nop => exact hφ

/-- A fact that mentions nothing with a new name, and nothing of the function being left,
travels under its own name. -/
theorem rename?_self {r : Renaming} {leaving : FunctionId}
    (hkeys : ∀ x a, r.get? x = some a → φ.mentions x = false)
    (hscope : ∀ x ∈ φ.vars, x.owner ≠ some leaving) : rename? r leaving φ = some φ := by
  have hside : ∀ x a, r.get? x = some a →
      φ.left.mentions x = false ∧ φ.right.mentions x = false := by
    intro x a hx
    simpa [Fact.mentions] using hkeys x a hx
  have hleft := substitute_of_not_mentions fun x a hx => (hside x a hx).1
  have hright := substitute_of_not_mentions fun x a hx => (hside x a hx).2
  rw [rename?_eq_some, hleft, hright]
  refine ⟨inScopeAfter_iff.2 (.inl ?_), inScopeAfter_iff.2 (.inl ?_), φ.of_self⟩
  · exact Expr.isScopedTo_eq_false.2 fun x hx => hscope x (List.mem_append.2 (.inl hx))
  · exact Expr.isScopedTo_eq_false.2 fun x hx => hscope x (List.mem_append.2 (.inr hx))

theorem not_mentions_of_vars {e : Expr} {x : Variable} (hx : x ∈ e.vars) (hφ : x ∉ φ.vars) :
    φ.mentions e = false := by
  rw [Fact.mentions, Bool.or_eq_false_iff, Expr.mentions, Expr.mentions,
    decide_eq_false_iff_not, decide_eq_false_iff_not]
  refine ⟨fun h => hφ ?_, fun h => hφ ?_⟩
  · exact List.mem_append.2 (.inl (Expr.mem_vars_of_mem_subexprs h hx))
  · exact List.mem_append.2 (.inr (Expr.mem_vars_of_mem_subexprs h hx))

theorem owner_of_isOwnedBy {f : FunctionId} (h : isOwnedBy f φ = true) :
    ∀ x ∈ φ.vars, x.owner = some f := by
  simpa using (Bool.and_eq_true_iff.1 h).2

variable {caller : FunctionId} {callee : Function} {result : Option Expr} {args : List Expr}

theorem mem_enter (howned : isOwnedBy caller φ = true) (hne : caller ≠ callee.id) (hφ : φ ∈ s)
    (hw : ∀ x ∈ addressTaken args, φ.mentions x = false) : φ ∈ s.enter caller callee args := by
  refine mem_of_forall_ne fun hall => ?_
  have htravel := ((forall_mem_enter (ne_of_isTautology hφ)).1 hall).2
  exact (htravel φ (mem_sparing.2 ⟨hφ, hw⟩)).2 ⟨hne, howned⟩ rfl

/-- A fact of the caller alone comes back from a callee with parameters of its own, if it does
not mention what is returned. -/
theorem mem_leave (howned : isOwnedBy caller φ = true) (hne : caller ≠ callee.id)
    (hparams : ∀ x ∈ callee.params, x.owner = some callee.id)
    (hreturned : ∀ y, callee.returned = some y → y.isLiteral = false → φ.mentions y = false)
    (hφ : φ ∈ s) (hw : ∀ x ∈ writtenBy result args, φ.mentions x = false) :
    φ ∈ s.leave caller callee result args := by
  refine mem_of_forall_ne fun hall => ?_
  have htaut := ne_of_isTautology hφ
  have howner := owner_of_isOwnedBy howned
  have hother : ∀ x ∈ φ.vars, x.owner ≠ some callee.id := by
    intro x hx
    rw [howner x hx]
    exact fun h => hne (Option.some.inj h)
  refine ((forall_mem_leave htaut).1 hall).2 φ (mem_sparing.2 ⟨hφ, hw⟩) φ
    (rename?_self (fun e a he => ?_) hother) ?_ rfl
  · rcases exitRenaming_spec he with hmem | ⟨hret, hlit, -⟩
    · obtain ⟨x, hx, rfl⟩ := List.mem_map.1 (List.of_mem_zip hmem).1
      refine not_mentions_of_vars (x := x) (by simp [Expr.vars, Expr.subexprs, Expr.asVariable])
        fun hxφ => ?_
      exact hother x hxφ (hparams x hx)
    · exact hreturned e hret hlit
  · simp only [isVisibleIn, List.all_eq_true, Bool.or_eq_true, beq_iff_eq]
    exact fun x hx => .inr (howner x hx)

end Facts

namespace Program

variable {p : Program}

/-- Whether the statement at a node writes nothing that a fact mentions. -/
def Spares (p : Program) (n : NodeId) (φ : Fact) : Prop :=
  ∀ stmt, p.stmtAt n = some stmt → ∀ x ∈ stmt.written, φ.mentions x = false

theorem exists_call_of_callAt {n : NodeId} {result : Option Expr} {args : List Expr}
    (hcall : p.callAt n = some (result, args)) :
    ∃ name, p.stmtAt n = some (.call result name args) := by
  unfold callAt at hcall
  split at hcall
  · rename_i hstmt
    cases hcall
    exact ⟨_, hstmt⟩
  · cases hcall

theorem Spares.of_callAt {n : NodeId} {φ : Fact} (h : p.Spares n φ) {result : Option Expr}
    {args : List Expr} (hcall : p.callAt n = some (result, args)) :
    ∀ x ∈ Facts.writtenBy result args, φ.mentions x = false := by
  obtain ⟨name, hstmt⟩ := exists_call_of_callAt hcall
  exact h _ hstmt

theorem functionOf_eq {n : NodeId} {g : Function} (hn : p.functionIdOf n = some g.id)
    (hg : p.functions[g.id]? = some g) : p.functionOf n = some g := by
  rw [functionOf, hn, Option.bind_some, hg]

theorem factsAfter_of_enter {s t : Facts} {e : EdgeId} {edge : Edge}
    (hedge : p.edges[e]? = some edge) (hkind : edge.kind = .enter)
    (ht : p.factsAfter s e = some t) : ∃ callee caller result args,
      p.functionOf edge.target = some callee ∧ p.functionIdOf edge.source = some caller ∧
      p.callAt edge.source = some (result, args) ∧ s.enter caller callee args = t := by
  simpa [factsAfter, hedge, hkind, Option.bind_eq_some_iff] using ht

theorem factsAfter_of_leave {s t : Facts} {e : EdgeId} {edge : Edge} {c : NodeId}
    (hedge : p.edges[e]? = some edge) (hkind : edge.kind = .leave c)
    (ht : p.factsAfter s e = some t) : ∃ callee caller result args,
      p.functionOf edge.source = some callee ∧ p.functionIdOf c = some caller ∧
      p.callAt c = some (result, args) ∧ s.leave caller callee result args = t := by
  simpa [factsAfter, hedge, hkind, Option.bind_eq_some_iff] using ht

theorem factsAfter_of_within {s t : Facts} {e : EdgeId} {edge : Edge}
    (hedge : p.edges[e]? = some edge) (hkind : edge.kind.isInterprocedural = false)
    (ht : p.factsAfter s e = some t) :
    p.stmtAt edge.source = none ∧ s = t ∨
      ∃ stmt, p.stmtAt edge.source = some stmt ∧ s.afterStatement edge.kind stmt = t := by
  cases hstmt : p.stmtAt edge.source with
  | none =>
    refine .inl ⟨rfl, ?_⟩
    cases hk : edge.kind <;> simp [hk, EdgeKind.isInterprocedural] at hkind <;>
      simpa [factsAfter, hedge, hk, hstmt] using ht
  | some stmt =>
    refine .inr ⟨stmt, rfl, ?_⟩
    cases hk : edge.kind <;> simp [hk, EdgeKind.isInterprocedural] at hkind <;>
      simpa [factsAfter, hedge, hk, hstmt] using ht

/-- Inside a function a fact is lost only to what is written. -/
theorem mem_factsAfter_of_spares {s t : Facts} {e : EdgeId} {edge : Edge} {φ : Fact}
    (hedge : p.edges[e]? = some edge) (hkind : edge.kind.isInterprocedural = false)
    (hspares : p.Spares edge.source φ) (hφ : φ ∈ s) (ht : p.factsAfter s e = some t) :
    φ ∈ t := by
  rcases factsAfter_of_within hedge hkind ht with ⟨-, rfl⟩ | ⟨stmt, hstmt, rfl⟩
  · exact hφ
  · exact Facts.mem_afterStatement hφ (hspares stmt hstmt)

end Program

end Typestate

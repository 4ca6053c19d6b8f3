import Typestate.Proofs.Facts.Soundness
import Typestate.Proofs.Program

/-!
# Whose facts are known where

A statement adds facts about its own expressions only. So in a program free of calls the facts
at a node speak of globals and of variables of the node's function, and nothing is known at the
root.
-/
namespace Typestate

variable {f : Option FunctionId}

namespace Expr

theorem isWithin_simplify {e : Expr} : e.simplify.IsWithin f ↔ e.IsWithin f := by
  rw [IsWithin, vars_simplify, IsWithin]

theorem isWithin_lit (n : Int) : (lit n).IsWithin f := by
  intro x hx
  cases hx

end Expr

/-- Whether both sides of a fact have only globals and variables of a function. -/
def Fact.IsWithin (f : Option FunctionId) (g : Fact) : Prop :=
  g.left.IsWithin f ∧ g.right.IsWithin f

theorem Fact.isWithin_of {a b : Expr} {op : Comparison} (ha : a.IsWithin f)
    (hb : b.IsWithin f) : (Fact.of a op b).IsWithin f := by
  rw [← Expr.isWithin_simplify] at ha hb
  unfold Fact.of
  split
  · exact ⟨hb, ha⟩
  · exact ⟨ha, hb⟩

namespace Facts

/-- Whether each fact of a set has only globals and variables of a function. -/
def IsWithin (f : Option FunctionId) (s : Facts) : Prop := ∀ g ∈ s, g.IsWithin f

variable {s : Facts}

theorem isWithin_empty : (∅ : Facts).IsWithin f :=
  fun _ h => absurd h (SortedSet.not_mem_empty _)

/-- What follows for the target of an operation compares the target with a literal. -/
theorem mem_linear {target left right : Expr} {op : BinaryOp} {g : Fact}
    (hg : g ∈ s.linear target op left right) : ∃ c n, g = Fact.of target c (.lit n) := by
  have moved : ∀ {operand : Expr} {n : Int}, g ∈ s.moved target op operand n →
      ∃ c n, g = Fact.of target c (.lit n) := by
    intro operand n hg
    unfold Facts.moved at hg
    split at hg
    · exact ⟨_, _, List.mem_singleton.1 hg⟩
    · split at hg
      · obtain ⟨r, -, rfl⟩ := List.mem_map.1 hg
        exact ⟨_, _, rfl⟩
      · obtain ⟨g', -, hg'⟩ := List.mem_filterMap.1 hg
        simp only [Option.bind_eq_bind, Option.bind_eq_some_iff, Option.pure_def,
          Option.some.injEq] at hg'
        obtain ⟨-, -, r, -, rfl⟩ := hg'
        exact ⟨_, _, rfl⟩
  unfold linear at hg
  split at hg
  · obtain ⟨r, -, rfl⟩ := List.mem_map.1 hg
    exact ⟨_, _, rfl⟩
  · exact moved hg
  · split at hg
    · exact moved hg
    · cases hg
  · cases hg

theorem mem_ofLabels {index : Expr} {cases : List CaseLabel} {g : Fact}
    (hg : g ∈ ofLabels index cases) : ∃ c n, g = Fact.of index c (.lit n) := by
  unfold ofLabels at hg
  split at hg
  · cases hg
  · split at hg
    · cases hg
    · split at hg
      · exact ⟨_, _, List.mem_singleton.1 hg⟩
      · rcases List.mem_cons.1 hg with rfl | hg
        · exact ⟨_, _, rfl⟩
        · exact ⟨_, _, List.mem_singleton.1 hg⟩

end Facts

/-- What a statement on an edge of a kind adds to facts. -/
inductive Statement.Adds (kind : EdgeKind) : Statement → Fact → Prop
  | use {target value : Expr} :
      Adds kind (.assign target (.use value)) (.of target.simplify .eq value.simplify)
  | cast {target value : Expr} :
      Adds kind (.assign target (.unary .cast value)) (.of target.simplify .eq value.simplify)
  | phi {target value : Expr} :
      Adds kind (.phi target value) (.of target.simplify .eq value.simplify)
  | number {target : Expr} {value : Rvalue} {c : Comparison} {n : Int} :
      Adds kind (.assign target value) (.of target.simplify c (.lit n))
  | branch {a b : Expr} {op : Comparison} {value : Bool} : kind.branch? = some value →
      Adds kind (.cond a op b) (.of a (if value then op else op.negate) b)
  | label {index : Expr} {c : Comparison} {n : Int} :
      Adds kind (.switch index) (.of index c (.lit n))

namespace Facts

variable {s : Facts}

/-- What is known after a statement was known before it, or is what the statement adds. -/
theorem mem_or_adds_of_mem_afterStatement {kind : EdgeKind} {stmt : Statement} {g : Fact}
    (hg : g ∈ s.afterStatement kind stmt) : g ∈ s ∨ stmt.Adds kind g := by
  have hcopy : ∀ {target value : Expr}, g ∈ s.copy target value →
      g ∈ s ∨ g = .of target .eq value := by
    intro target value hg
    unfold Facts.copy at hg
    split at hg
    · exact .inl (mem_forget.1 hg).1
    · rcases mem_add.1 hg with ⟨rfl, -⟩ | hg
      · exact .inr rfl
      · exact .inl (mem_forget.1 hg).1
  cases stmt with
  | assign target value =>
    unfold Facts.afterStatement Facts.assign at hg
    dsimp only at hg
    split at hg
    · rcases hcopy hg with hg | rfl
      · exact .inl hg
      · exact .inr .use
    · rcases hcopy hg with hg | rfl
      · exact .inl hg
      · exact .inr .cast
    · rcases mem_addAll.1 hg with hg | ⟨hg, -⟩
      · exact .inl (mem_forget.1 hg).1
      · obtain ⟨c, n, rfl⟩ := mem_linear hg
        exact .inr .number
    · split at hg
      · rcases mem_add.1 hg with ⟨rfl, -⟩ | hg
        · exact .inr .number
        · exact .inl (mem_forget.1 hg).1
      · exact .inl (mem_forget.1 hg).1
    · exact .inl (mem_forget.1 hg).1
  | phi target value =>
    rcases hcopy hg with hg | rfl
    · exact .inl hg
    · exact .inr .phi
  | call result callee args =>
    unfold Facts.afterStatement at hg
    have hg := (mem_foldl_forget.1 hg).1
    cases result with
    | none => exact .inl hg
    | some e => exact .inl (mem_forget.1 hg).1
  | cond a op b =>
    unfold Facts.afterStatement at hg
    dsimp only at hg
    split at hg
    · rename_i hbranch
      rcases mem_add.1 hg with ⟨rfl, -⟩ | hg
      · exact .inr (.branch hbranch)
      · exact .inl hg
    · rename_i hbranch
      rcases mem_add.1 hg with ⟨rfl, -⟩ | hg
      · exact .inr (.branch hbranch)
      · exact .inl hg
    · exact .inl hg
  | switch index =>
    rcases mem_addAll.1 hg with hg | ⟨hg, -⟩
    · exact .inl hg
    · obtain ⟨c, n, rfl⟩ := mem_ofLabels hg
      exact .inr .label
  | ret value => exact .inl hg
  | nop => exact .inl hg

/-- A statement adds facts about its own expressions only. -/
theorem IsWithin.afterStatement (h : s.IsWithin f) {kind : EdgeKind} {stmt : Statement}
    (hs : ∀ e ∈ stmt.exprs, e.IsWithin f) : (s.afterStatement kind stmt).IsWithin f := by
  have hsimplify : ∀ e ∈ stmt.exprs, e.simplify.IsWithin f :=
    fun e he => Expr.isWithin_simplify.2 (hs e he)
  intro g hg
  rcases mem_or_adds_of_mem_afterStatement hg with hg | hadds
  · exact h g hg
  · cases hadds with
    | use | cast | phi =>
      exact Fact.isWithin_of (hsimplify _ (by simp [Statement.exprs, Statement.defined?]))
        (hsimplify _ (by simp [Statement.exprs, Statement.reads, Rvalue.operands]))
    | number =>
      exact Fact.isWithin_of (hsimplify _ (by simp [Statement.exprs, Statement.defined?]))
        (Expr.isWithin_lit _)
    | branch =>
      exact Fact.isWithin_of (hs _ (by simp [Statement.exprs, Statement.reads]))
        (hs _ (by simp [Statement.exprs, Statement.reads]))
    | label =>
      exact Fact.isWithin_of (hs _ (by simp [Statement.exprs, Statement.reads]))
        (Expr.isWithin_lit _)

end Facts

namespace Program

variable {p : Program}

/-- What is known at a node of a program free of calls. -/
structure FactsWithin (p : Program) (n : NodeId) (s : Facts) : Prop where
  within : s.IsWithin (p.functionIdOf n)
  root : n = root → s = ∅

theorem preserves_factsWithin (hfree : p.CallFree) :
    p.factsProblem.Preserves p.FactsWithin where
  seed n hn := ⟨Facts.isWithin_empty, fun _ => rfl⟩
  transfer := by
    intro n s x t hs hx ht
    obtain ⟨edge, hedge, rfl, htarget⟩ := mem_successors.1 hx
    have hmem := Array.mem_of_getElem? hedge
    have hafter := (factsFlow_eq_some.1 ht).1
    refine ⟨?_, fun hroot => absurd (htarget.trans hroot) (hfree.root edge hmem)⟩
    rcases hfree.edges edge hmem with ⟨hkind, hsource⟩ | ⟨guard, f, hkind, hsource, htarget'⟩
    · obtain rfl : s = t := by simpa [factsAfter, hedge, hkind] using hafter
      rw [hs.root hsource]
      exact Facts.isWithin_empty
    · rw [← htarget, htarget', ← hsource]
      cases hstmt : p.stmtAt edge.source with
      | none =>
        obtain rfl : s = t := by simpa [factsAfter, hedge, hkind, hstmt] using hafter
        exact hs.within
      | some stmt =>
        obtain rfl : s.afterStatement (.flow guard) stmt = t := by
          simpa [factsAfter, hedge, hkind, hstmt] using hafter
        exact hs.within.afterStatement (hfree.statements _ stmt hstmt)
  meet := by
    intro n s t hs ht
    refine ⟨fun g hg => hs.within g (Facts.mem_meet.1 hg).1, fun hn => ?_⟩
    refine Facts.ext fun g => ⟨fun hg => ?_, fun hg => absurd hg (SortedSet.not_mem_empty _)⟩
    exact hs.root hn ▸ (Facts.mem_meet.1 hg).1

theorem factsWithin_of_value (hfree : p.CallFree) {pass : String} {limit : Nat}
    {sol : FactsSolution} (hs : p.factsProblem.solve pass limit = .ok sol) {n : NodeId}
    {s : Facts} (hn : sol.value n = some s) : p.FactsWithin n s :=
  (preserves_factsWithin hfree).solve hs hn

end Program

end Typestate

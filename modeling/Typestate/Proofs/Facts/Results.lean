import Typestate.Proofs.Facts.Monotone
import Typestate.Proofs.Facts.RoundTrip

/-!
# What is known of the result of a call

The callee's exit tells the return site of the result, but the edge past the callee forgets it,
and the return site keeps what both edges bring. So where the call node is reached nothing is
known of the result, and where it is not, all that the exit tells is.
-/
namespace Typestate

namespace Facts

theorem mem_afterStatement_call {s : Facts} {kind : EdgeKind} {result : Option Expr}
    {name : String} {args : List Expr} {φ : Fact} :
    φ ∈ s.afterStatement kind (.call result name args) ↔
      φ ∈ s ∧ ∀ x ∈ writtenBy result args, φ.mentions x = false := by
  refine ⟨fun h => ?_, fun h => mem_afterStatement h.1 h.2⟩
  unfold afterStatement at h
  obtain ⟨hmem, haddr⟩ := mem_foldl_forget.1 h
  cases result with
  | none => exact ⟨hmem, fun x hx => haddr x (by simpa [writtenBy] using hx)⟩
  | some y =>
    obtain ⟨hs, hy⟩ := mem_forget.1 hmem
    refine ⟨hs, fun x hx => ?_⟩
    rcases List.mem_append.1 hx with hx | hx
    · exact haddr x hx
    · obtain rfl := List.mem_singleton.1 hx
      exact hy

end Facts

namespace Program

/-- A return site that is entered past the callee of one call and from its exit, and in no other
way. -/
structure ReturnsAlone (p : Program) (c x n : NodeId) (past back : EdgeId) : Prop where
  passes : p.edges[past]? = some ⟨c, n, .callToReturn⟩
  leaves : p.edges[back]? = some ⟨x, n, .leave c⟩
  only : ∀ e edge, p.edges[e]? = some edge → edge.target = n → e = past ∨ e = back
  other : n ≠ root

variable {p : Program} {sol : FactsSolution} {pass : String} {limit : Nat} {c x n : NodeId}
  {past into back : EdgeId} {caller : FunctionId} {callee : Function} {result : Option Expr}
  {args : List Expr} {s t : Facts}

theorem isPossible_of_value (hs : p.factsProblem.solve pass limit = .ok sol)
    (hv : sol.value n = some s) : s.isPossible = true :=
  (preserves_isPossible p).solve hs hv

theorem subset_of_value (hs : p.factsProblem.solve pass limit = .ok sol) {e : EdgeId}
    {edge : Edge} (hedge : p.edges[e]? = some edge) (hv : sol.value edge.source = some s)
    {u : Facts} (hu : (p.factsFlow s e).1 = some u) (ht : sol.value edge.target = some t) :
    t ⊆ u := by
  obtain ⟨w, hw, hwu⟩ := (Facts.rises_factsProblem p).passedOn_solve hs edge.source s hv
    (e, edge.target) (mem_successors.2 ⟨edge, hedge, rfl, rfl⟩) u hu
  obtain rfl := Option.some.inj (hw.symm.trans ht)
  exact hwu

/-- Where a call node is reached, the return site knows nothing of what the call writes. -/
theorem ReturnsAlone.spares_of_value (h : p.ReturnsAlone c x n past back)
    (hs : p.factsProblem.solve pass limit = .ok sol) (hcall : p.callAt c = some (result, args))
    (hc : sol.value c = some s) (ht : sol.value n = some t) :
    ∀ φ ∈ t, φ ∈ s ∧ ∀ x ∈ Facts.writtenBy result args, φ.mentions x = false := by
  obtain ⟨name, hstmt⟩ := exists_call_of_callAt hcall
  have hafter : p.factsAfter s past =
      some (s.afterStatement .callToReturn (.call result name args)) := by
    simp [factsAfter, h.passes, hstmt]
  have hsub : ∀ φ ∈ s.afterStatement .callToReturn (.call result name args), φ ∈ s :=
    fun φ hφ => (Facts.mem_afterStatement_call.1 hφ).1
  have hpossible := Facts.isPossible_of_subset hsub (isPossible_of_value hs hc)
  intro φ hφ
  exact Facts.mem_afterStatement_call.1
    (subset_of_value hs h.passes hc (factsFlow_eq_some.2 ⟨hafter, hpossible⟩) ht φ hφ)

/-- Where a call node is not reached, the return site knows what the callee's exit tells. -/
theorem ReturnsAlone.eq_leave_of_value (h : p.ReturnsAlone c x n past back)
    (hs : p.factsProblem.solve pass limit = .ok sol)
    (hleave : p.LeavesAt back caller callee result args) (hc : sol.value c = none)
    (ht : sol.value n = some t) :
    ∃ s, sol.value x = some s ∧ t = s.leave caller callee result args := by
  have hpres : p.factsProblem.PreservesWithin
      (fun m s => Reaches (fun s t : Facts => ∀ ψ ∈ t, ψ ∈ s) sol.values m s)
      fun m v => m = n → ∃ s, sol.value x = some s ∧ s.leave caller callee result args ⊆ v ∧
        (s.leave caller callee result args).isPossible = true := by
    refine ⟨fun m hm hmn => ?_, fun {m v e u} hbound _ he hu htarget => ?_,
      fun {m u v} hu hv hmn => ?_⟩
    · obtain rfl := List.mem_singleton.1 hm
      exact absurd hmn.symm h.other
    · obtain ⟨edge, hedge, rfl, htarget'⟩ := mem_successors.1 he
      obtain ⟨s, hvs, hsv⟩ := hbound
      rcases h.only e.1 edge hedge (htarget'.trans htarget) with hpast | hback
      · rw [hpast, h.passes] at hedge
        obtain rfl := Option.some.inj hedge
        cases hc.symm.trans hvs
      · rw [hback, h.leaves] at hedge
        obtain rfl := Option.some.inj hedge
        obtain ⟨hafter, hpossible⟩ := factsFlow_eq_some.1 hu
        rw [hback, hleave.factsAfter v] at hafter
        obtain rfl := Option.some.inj hafter
        have hsub := Facts.leave_subset_leave hsv caller callee result args
        exact ⟨s, hvs, hsub, Facts.isPossible_of_subset hsub hpossible⟩
    · obtain ⟨s, hvs, hsu, hpossible⟩ := hu hmn
      obtain ⟨s', hvs', hsv, -⟩ := hv hmn
      obtain rfl := Option.some.inj (hvs.symm.trans hvs')
      exact ⟨s, hvs, fun φ hφ => Facts.mem_meet.2 ⟨hsu φ hφ, hsv φ hφ⟩, hpossible⟩
  obtain ⟨s, hvs, hsub, hpossible⟩ :=
    hpres.solve (Facts.rises_factsProblem p) hs (fun _ _ hr => hr) ht rfl
  refine ⟨s, hvs, Facts.ext fun φ => ⟨fun hφ => ?_, hsub φ⟩⟩
  exact subset_of_value hs h.leaves hvs (factsFlow_eq_some.2 ⟨hleave.factsAfter s, hpossible⟩) ht
    φ hφ

/-- A fact that mentions the result is known at the return site of a call exactly when the callee's
exit tells it and the call node is not reached. -/
theorem resultKnown_iff (hs : p.factsProblem.solve pass limit = .ok sol) {y : Expr}
    (hcall : p.CallEdges c into back caller callee (some y) args)
    (hsite : p.ReturnsAlone c x n past back) (ht : sol.value n = some t) {φ : Fact}
    (hφ : φ.mentions y.simplify = true) :
    φ ∈ t ↔ sol.value c = none ∧
      ∃ s, sol.value x = some s ∧ φ ∈ s.leave caller callee (some y) args := by
  cases hc : sol.value c with
  | some s =>
    refine ⟨fun hmem => ?_, fun h => nomatch h.1⟩
    have hspared := (hsite.spares_of_value hs hcall.call hc ht φ hmem).2
    rw [hspared y.simplify (List.mem_append.2 (.inr (by simp)))] at hφ
    cases hφ
  | none =>
    obtain ⟨s, hvs, rfl⟩ := hsite.eq_leave_of_value hs hcall.leavesAt hc ht
    refine ⟨fun hmem => ⟨rfl, s, hvs, hmem⟩, ?_⟩
    rintro ⟨-, s', hvs', hmem⟩
    obtain rfl := Option.some.inj (hvs.symm.trans hvs')
    exact hmem

section Answering

def sevenFunction : Function := ⟨1, "seven", [], [], 3, 4, some (.lit 7), none, none⟩

def answer : Variable := ⟨"y", some 0, .localVar, .integer⟩

/-- The program `main() { y = seven(); }` with `seven() { return 7; }`. If the call is not
reached, `seven` is entered from outside instead. -/
def answering (reached : Bool) : Program :=
  { nodes := #[⟨none, .root, none, none⟩, ⟨some 0, .entry, none, none⟩,
      ⟨some 0, .exit, none, none⟩, ⟨some 1, .entry, none, none⟩, ⟨some 1, .exit, none, none⟩,
      ⟨some 0, .call, some (.call (some (.var answer)) "seven" []), none⟩,
      ⟨some 0, .returnSite, none, none⟩, ⟨some 1, .statement, some (.ret (some (.lit 7))), none⟩]
    edges := #[⟨5, 3, .enter⟩, ⟨5, 6, .callToReturn⟩, ⟨4, 6, .leave 5⟩, ⟨6, 2, .flow .always⟩,
        ⟨3, 7, .flow .always⟩, ⟨7, 4, .flow .always⟩, ⟨0, 1, .root⟩] ++
      if reached then #[⟨1, 5, .flow .always⟩] else #[⟨0, 3, .root⟩]
    functions := #[⟨0, "main", [], [answer], 1, 2, none, none, none⟩, sevenFunction]
    globals := [] }

def answered : Fact := .of (.var answer) .eq (.lit 7)

theorem callEdges_answering (reached : Bool) :
    (answering reached).CallEdges 5 0 2 0 sevenFunction (some (.var answer)) [] := by
  cases reached <;> exact ⟨⟨3, rfl, rfl⟩, ⟨4, 6, rfl, rfl⟩, rfl, rfl⟩

theorem returnsAlone_answering (reached : Bool) : (answering reached).ReturnsAlone 5 4 6 1 2 := by
  have hedges : ∀ e < 8, ∀ edge ∈ (answering reached).edges[e]?,
      edge.target = 6 → e = 1 ∨ e = 2 := by
    cases reached <;> decide
  refine ⟨by cases reached <;> rfl, by cases reached <;> rfl, fun e edge hedge => ?_, by decide⟩
  obtain ⟨he, -⟩ := Array.getElem?_eq_some_iff.1 hedge
  exact hedges e (by cases reached <;> exact he) edge hedge

/-- If the call is not reached, its return site is told the result by an exit that is. -/
theorem resultKnown_answering :
    ∃ sol t, (answering false).factsProblem.solve "facts" 100 = .ok sol ∧
      answered.mentions (Expr.var answer).simplify = true ∧ sol.value 6 = some t ∧
      answered ∈ t := by
  obtain ⟨sol, hs, htest⟩ := exists_eq_ok_of_any
    ((answering false).factsProblem.solve "facts" 100)
    (fun sol => (sol.value 6).isSome && (sol.value 5).isNone &&
      (sol.value 4).any fun s => answered ∈ s.leave 0 sevenFunction (some (.var answer)) [])
    (by decide +kernel)
  simp only [Bool.and_eq_true, Option.isNone_iff_eq_none, Option.any_eq_true, decide_eq_true_eq]
    at htest
  obtain ⟨⟨hreach, hc⟩, hexit⟩ := htest
  obtain ⟨t, ht⟩ := Option.isSome_iff_exists.1 hreach
  exact ⟨sol, t, hs, by decide, ht, (resultKnown_iff hs (callEdges_answering false)
    (returnsAlone_answering false) ht (by decide)).2 ⟨hc, hexit⟩⟩

/-- If the call is reached, the exit tells that the result is 7, and the return site does not
know it. -/
theorem answering_forgets :
    (answering true).AcyclicCalls ∧
    (answering true).CallEdges 5 0 2 0 sevenFunction (some (.var answer)) [] ∧
    (answering true).ReturnsAlone 5 4 6 1 2 ∧ answered.mentions (Expr.var answer).simplify = true ∧
    ∃ sol s t, (answering true).factsProblem.solve "facts" 100 = .ok sol ∧
      sol.value 4 = some s ∧ answered ∈ s.leave 0 sevenFunction (some (.var answer)) [] ∧
      sol.value 6 = some t ∧ answered ∉ t := by
  have hforward : (answering true).CallsForward := by
    unfold CallsForward
    decide
  obtain ⟨sol, hs, htest⟩ := exists_eq_ok_of_any
    ((answering true).factsProblem.solve "facts" 100)
    (fun sol => (sol.value 6).any (answered ∉ ·) &&
      (sol.value 4).any fun s => answered ∈ s.leave 0 sevenFunction (some (.var answer)) [])
    (by decide +kernel)
  simp only [Bool.and_eq_true, Option.any_eq_true, decide_eq_true_eq] at htest
  obtain ⟨⟨t, ht, hnot⟩, s, hv, hmem⟩ := htest
  exact ⟨hforward.acyclicCalls, callEdges_answering true, returnsAlone_answering true, by decide,
    sol, s, t, hs, hv, hmem, ht, hnot⟩

end Answering

end Program

end Typestate

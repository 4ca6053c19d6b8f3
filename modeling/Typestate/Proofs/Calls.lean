import Mathlib.Logic.Relation
import Typestate.Program

/-!
# Calls between functions

A call of a function is a call node with an edge into it. The return site of the call is
entered from the call node, past the callee, and from the callee's exit.
-/
namespace Typestate.Program

variable (p : Program)

/-- Whether a node of a function calls another. -/
def CallsAt (caller callee : FunctionId) (c : NodeId) : Prop :=
  p.functionIdOf c = some caller ∧
    ∃ edge ∈ p.edges, edge.source = c ∧ edge.kind = .enter ∧
      p.functionIdOf edge.target = some callee

/-- Whether a node of a function is entered only where calls of another return. -/
def ReturnsFrom (caller callee : FunctionId) (n : NodeId) : Prop :=
  p.functionIdOf n = some caller ∧
    ∀ edge ∈ p.edges, edge.target = n →
      edge.kind = .callToReturn ∧ p.CallsAt caller callee edge.source ∨
      ∃ c, edge.kind = .leave c ∧ p.functionIdOf edge.source = some callee ∧
        p.CallsAt caller callee c

def Calls (f g : FunctionId) : Prop := ∃ c, p.CallsAt f g c

/-- Whether calls lead from a function to another, or to itself by none. -/
def LeadsTo : FunctionId → FunctionId → Prop := Relation.ReflTransGen p.Calls

/-- Whether no function calls itself, be it through others. -/
def AcyclicCalls : Prop := ∀ f, ¬ Relation.TransGen p.Calls f f

variable {p : Program}

/-- The return site of a call is entered past the callee and from its exit. -/
theorem returnsFrom_of_edges {f g : FunctionId} {c n : NodeId} (exit : NodeId)
    (hc : p.CallsAt f g c) (hn : p.functionIdOf n = some f)
    (hexit : p.functionIdOf exit = some g)
    (h : ∀ edge ∈ p.edges, edge.target = n →
      edge = ⟨c, n, .callToReturn⟩ ∨ edge = ⟨exit, n, .leave c⟩) : p.ReturnsFrom f g n := by
  refine ⟨hn, fun edge hedge htarget => ?_⟩
  rcases h edge hedge htarget with rfl | rfl
  · exact .inl ⟨rfl, hc⟩
  · exact .inr ⟨c, rfl, hexit, hc⟩

/-- Whether all calls are of later functions. -/
def CallsForward (p : Program) : Prop :=
  ∀ edge ∈ p.edges, edge.kind = .enter →
    ∃ f ∈ p.functionIdOf edge.source, ∃ g ∈ p.functionIdOf edge.target, f < g

theorem CallsForward.lt_of_calls (h : p.CallsForward) {f g : FunctionId} (hc : p.Calls f g) :
    f < g := by
  obtain ⟨c, hcaller, edge, hedge, rfl, hkind, htarget⟩ := hc
  obtain ⟨f', hf', g', hg', hlt⟩ := h edge hedge hkind
  obtain rfl : f = f' := Option.some.inj (hcaller.symm.trans hf')
  obtain rfl : g = g' := Option.some.inj (htarget.symm.trans hg')
  exact hlt

theorem CallsForward.le_of_leadsTo (h : p.CallsForward) {f g : FunctionId}
    (hlead : p.LeadsTo f g) : f ≤ g := by
  induction hlead with
  | refl => exact Nat.le_refl f
  | tail _ hc ih => exact Nat.le_trans ih (Nat.le_of_lt (h.lt_of_calls hc))

theorem CallsForward.acyclicCalls (h : p.CallsForward) : p.AcyclicCalls := by
  intro f hf
  obtain ⟨g, hc, hlead⟩ := Relation.TransGen.head'_iff.1 hf
  exact Nat.not_lt.2 (h.le_of_leadsTo hlead) (h.lt_of_calls hc)

end Typestate.Program

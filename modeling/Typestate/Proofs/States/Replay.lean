import Typestate.Proofs.States.Transfer

/-!
# Replays

While a concrete run follows edges, the states pass replays it: the states start as they do at
the root, and each edge carries them on. What the facts pass finds impossible no run does, so
every run has a replay.
-/
namespace Typestate

namespace StatesContext

variable {ctx : StatesContext} {path : List EdgeId} {n : NodeId} {v v' : Valuation}
  {x : NodeStates}

/-- The states of the classes after some edges, the latest first. -/
def statesAlong (ctx : StatesContext) : List EdgeId → Option NodeStates
  | [] => some (ctx.initial Program.root)
  | e :: path => (ctx.statesAlong path).bind fun x => (ctx.transfer x e).result

/-- A run along some edges to a node and a valuation, and the states of the classes there. -/
structure Replays (ctx : StatesContext) (path : List EdgeId) (n : NodeId) (v : Valuation)
    (x : NodeStates) : Prop where
  runs : ctx.program.Runs path n v
  states : ctx.statesAlong path = some x

theorem Replays.fits (hreg : ctx.Regular) (h : ctx.Replays path n v x) : ctx.Fits n x := by
  obtain ⟨hr, hx⟩ := h
  induction hr generalizing x with
  | start v => exact Option.some.inj hx ▸ fits_initial
  | step _ he _ ih =>
    obtain ⟨w, hw, hx⟩ := Option.bind_eq_some_iff.1 hx
    exact fits_transfer hreg he (ih hw) hx

section Facts

variable {p : Program} {a : Automaton} {facts : FactsSolution} {pass : String} {limit : Nat}

theorem isFeasible_of {e : EdgeId} (he : e < p.edges.size) :
    (StatesContext.of p a facts).isFeasible e = p.isFeasible facts.value e := by
  simp [isFeasible, StatesContext.of, he]

theorem isFeasible_of_takes (hord : p.LabelsOrdered)
    (hs : p.factsProblem.solve pass limit = .ok facts) {e : EdgeId} {edge : Edge}
    (hr : p.Runs path edge.source v) (he : p.edges[e]? = some edge) (ht : p.Takes edge v v') :
    (StatesContext.of p a facts).isFeasible e = true := by
  obtain ⟨s, hsource, hsat, -⟩ := Program.factsProblem_sound hord hs hr
  obtain ⟨t, htarget, -, -⟩ := Program.factsProblem_sound hord hs (.step hr he ht)
  obtain ⟨u, hflow, -⟩ := Program.factsFlow_of_takes hord he ht hsat
  obtain ⟨hlt, -⟩ := Array.getElem?_eq_some_iff.1 he
  obtain ⟨hafter, hpossible⟩ := Program.factsFlow_eq_some.1 hflow
  rw [isFeasible_of hlt, Program.isFeasible, he]
  simp [hsource, htarget, hafter, hpossible]

/-- Every run has a replay. -/
theorem exists_replay (hwf : p.WellFormed) (hfree : p.CallFree)
    (hs : p.factsProblem.solve pass limit = .ok facts) (hr : p.Runs path n v) :
    ∃ x, (StatesContext.of p a facts).Replays path n v x := by
  have hreg := regular_of (a := a) hwf hfree hs
  induction hr with
  | start v => exact ⟨_, .start v, rfl⟩
  | step hr he ht ih =>
    obtain ⟨x, hx⟩ := ih
    obtain ⟨T, -, hresult⟩ := exists_threads hreg he
      (isFeasible_of_takes hfree.labels hs hr he ht)
    refine ⟨T x, .step hr he ht, ?_⟩
    rw [statesAlong, hx.states]
    exact hresult x (hx.fits hreg)

end Facts

end StatesContext

end Typestate

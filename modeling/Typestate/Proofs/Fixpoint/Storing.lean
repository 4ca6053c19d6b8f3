import Typestate.Proofs.Fixpoint.Descent
import Typestate.Proofs.Fixpoint.Termination

/-!
# Values on the way

On its way to a solution the solver gives a node one value after the other, and with too low a
limit there is no solution to look at. What the seeds have and survives transfers and meets holds
of all these values, whatever becomes of the run.
-/
namespace Typestate

variable {V ω : Type}

namespace Dataflow

variable [DecidableEq V] {d : Dataflow V ω} {P : NodeId → V → Prop} {it fin : Iteration V ω}

/-- The states that the solver comes through, visit by visit. -/
inductive Passes (d : Dataflow V ω) : Iteration V ω → Prop
  | start : Passes d d.start
  | visit {it n rest} : Passes d it → it.pending = n :: rest →
      Passes d (d.visit n { it with pending := rest })

/-- Whether the solver gives a node a value, be it only for a while. -/
def Stores (d : Dataflow V ω) (n : NodeId) (v : V) : Prop :=
  ∃ it, d.Passes it ∧ ∃ c ∈ d.seeds ++ it.changes, c.node = n ∧ c.new = v

theorem Passes.iterate (h : d.Passes it) {allowed : Nat} (hfin : d.iterate allowed it = some fin) :
    d.Passes fin :=
  (iterate_induction (M := d.Passes) (fun _ _ _ hp hj => hj.visit hp) hfin h).1

/-- What holds at the start and survives the steps of visits holds on the whole way. -/
theorem Passes.induction {M : Iteration V ω → Prop} (hstart : M d.start)
    (hvisits : ∀ it n rest, M it → M { it with pending := rest, visits := n :: it.visits })
    (hpending : ∀ it rest, M it → M { it with pending := rest })
    (hstep : ∀ it, M it → ∀ n v, it.values.get? n = some v → ∀ e ∈ d.successors n, ∀ j, M j →
      M (d.step v j e)) (h : d.Passes it) : M it := by
  induction h with
  | start => exact hstart
  | @visit it n rest _ _ ih =>
    refine visit_induction (hpending it rest ih) (hvisits it n rest ih) fun v hv e he j hj => ?_
    exact hstep it ih n v hv e he j hj

/-- What the seeds have and survives transfers and meets holds of every value that the solver
stores. -/
theorem Preserves.of_stores (h : d.Preserves P) {n : NodeId} {v : V} (hv : d.Stores n v) :
    P n v := by
  obtain ⟨it, hit, c, hc, rfl, rfl⟩ := hv
  let M (j : Iteration V ω) : Prop := Within P j ∧ ∀ c ∈ j.changes, P c.node c.new
  have hM : M it := by
    apply hit.induction (M := M)
    · refine ⟨h.within_start, fun c hc => ?_⟩
      rw [changes_start] at hc
      cases hc
    · exact fun _ _ _ hj => hj
    · exact fun _ _ hj => hj
    · intro it hit n v hv e he j hj
      have hwithin := h.within_step (hit.1 n v hv) he hj.1
      refine ⟨hwithin, fun c hc => ?_⟩
      rcases step_cases d v j e with ⟨-, hchanges⟩ | ⟨u, hchanges, hvalues⟩
      · exact hj.2 c (hchanges ▸ hc)
      · rw [hchanges] at hc
        rcases List.mem_cons.1 hc with rfl | hc
        · exact hwithin e.2 _ (by rw [hvalues, if_pos rfl])
        · exact hj.2 c hc
  rcases List.mem_append.1 hc with hc | hc
  · obtain ⟨hn, hc⟩ := mem_seeds.1 hc
    rw [hc]
    exact h.seed _ hn
  · exact hM.2 c hc

theorem Passes.stores (h : d.Passes it) {n : NodeId} {v : V} (hv : it.values.get? n = some v) :
    d.Stores n v := by
  let M (j : Iteration V ω) : Prop := ∀ n v, j.values.get? n = some v →
    ∃ c ∈ d.seeds ++ j.changes, c.node = n ∧ c.new = v
  have hM : M it := by
    apply h.induction (M := M)
    · intro n v hv
      rw [get?_start] at hv
      split at hv
      · rename_i hn
        obtain rfl := Option.some.inj hv
        exact ⟨⟨n, none, d.seed n⟩, List.mem_append.2 (.inl (mem_seeds.2 ⟨hn, rfl⟩)), rfl, rfl⟩
      · cases hv
    · exact fun _ _ _ hj => hj
    · exact fun _ _ hj => hj
    · intro _ _ _ v _ e _ j hj m w hw
      rcases step_cases d v j e with ⟨hvalues, hchanges⟩ | ⟨u, hchanges, hvalues⟩
      · rw [hvalues] at hw
        rw [hchanges]
        exact hj m w hw
      · rw [hvalues] at hw
        rw [hchanges]
        split at hw
        · rename_i hm
          refine ⟨⟨e.2, j.values.get? e.2, d.arrived (j.values.get? e.2) u⟩, ?_, hm.symm,
            Option.some.inj hw⟩
          simp
        · obtain ⟨c, hc, hcm⟩ := hj m w hw
          refine ⟨c, ?_, hcm⟩
          rw [List.mem_append] at hc ⊢
          exact hc.imp_right (List.mem_cons_of_mem _)
  exact ⟨it, h, hM n v hv⟩

theorem stores_of_value {pass : String} {limit : Nat} {sol : Solution V ω}
    (hs : d.solve pass limit = .ok sol) {n : NodeId} {v : V} (hv : sol.value n = some v) :
    d.Stores n v := by
  obtain ⟨fin, hfin, hvalues, -⟩ := solve_eq_ok hs
  exact (Passes.start.iterate hfin).stores (hvalues ▸ hv)

end Dataflow

end Typestate

import Typestate.Proofs.Fixpoint

/-!
# Limits and smaller graphs

A limit on visits cuts a run of the solver off but does not steer it: with any limit that is
enough the solution is the same. An edge to a node that never gets a value does nothing, so
that without such nodes the solver goes through the same values in the same order.
-/
namespace Typestate

variable {V ω : Type}

/-- Two states of the solver with the same values and the same nodes to visit. -/
structure Iteration.Alike (it it' : Iteration V ω) : Prop where
  values : it'.values = it.values
  pending : it'.pending = it.pending

namespace Iteration

variable {it it' : Iteration V ω}

theorem Alike.refl (it : Iteration V ω) : Alike it it := ⟨rfl, rfl⟩

theorem Alike.set (h : Alike it it') (n : NodeId) (v : V) : Alike (it.set n v) (it'.set n v) := by
  unfold Iteration.set push
  simp only [h.values, h.pending]
  split <;> exact ⟨rfl, rfl⟩

end Iteration

namespace Dataflow

open Iteration

variable {d d' : Dataflow V ω} [DecidableEq V] {pass : String} {limit limit' : Nat}
  {sol sol' : Solution V ω}

theorem iterate_add {allowed : Nat} {it fin : Iteration V ω}
    (h : d.iterate allowed it = some fin) (more : Nat) :
    d.iterate (allowed + more) it = some fin := by
  induction allowed generalizing it with
  | zero =>
    unfold iterate at h ⊢
    split at h
    · exact h
    · cases h
  | succ allowed ih =>
    rw [Nat.succ_add]
    unfold iterate at h ⊢
    split at h
    · exact h
    · exact ih h

/-- The limit does not change the solution. -/
theorem solve_unique (hs : d.solve pass limit = .ok sol) (hs' : d.solve pass limit' = .ok sol') :
    sol' = sol := by
  have enough : ∀ {limit sol}, d.solve pass limit = .ok sol → ∀ more,
      d.solve pass (limit + more) = .ok sol := by
    intro limit sol hs more
    unfold solve at hs ⊢
    split at hs
    · cases hs
    · rename_i fin hfin
      rw [iterate_add hfin more]
      exact hs
  have hmore := enough hs limit'
  rw [Nat.add_comm, enough hs' limit] at hmore
  exact Except.ok.inj hmore

theorem solve_eq_error {fault : Fault} (h : d.solve pass limit = .error fault) :
    fault = .notConverged pass limit := by
  unfold solve at h
  split at h
  · exact (Except.error.inj h).symm
  · cases h

/-- A problem with some of the nodes of another and the edges between them. -/
structure Restricts (d d' : Dataflow V ω) (test : NodeId → Bool) : Prop where
  entries : d'.entries = d.entries
  seed : d'.seed = d.seed
  meet : d'.meet = d.meet
  successors : ∀ n, test n = true → d'.successors n = (d.successors n).filter (test ·.2)
  transfer : ∀ n, test n = true → ∀ e ∈ d.successors n, test e.2 = true → ∀ v,
    (d'.transfer v e.1).1 = (d.transfer v e.1).1

namespace Restricts

variable {test : NodeId → Bool}

theorem alike_step (h : d.Restricts d' test) {n : NodeId} (hn : test n = true)
    {e : EdgeId × NodeId} (he : e ∈ d.successors n) (ht : test e.2 = true) (v : V)
    {it it' : Iteration V ω} (hit : Alike it it') : Alike (d.step v it e) (d'.step v it' e) := by
  have htransfer := h.transfer n hn e he ht v
  have harrived : ∀ u, d'.arrived (it'.values.get? e.2) u = d.arrived (it.values.get? e.2) u := by
    intro u
    simp only [arrived, hit.values, h.meet]
  cases hr : (d.transfer v e.1).1 with
  | none =>
    obtain ⟨hvalues, hpending⟩ := step_of_none it hr
    obtain ⟨hvalues', hpending'⟩ := step_of_none it' (htransfer.trans hr)
    exact ⟨by rw [hvalues, hvalues', hit.values], by rw [hpending, hpending', hit.pending]⟩
  | some u =>
    by_cases hu : it.values.get? e.2 = some (d.arrived (it.values.get? e.2) u)
    · obtain ⟨hvalues, hpending⟩ := step_of_unchanged hr hu
      have hu' : it'.values.get? e.2 = some (d'.arrived (it'.values.get? e.2) u) := by
        rw [harrived, hit.values]
        exact hu
      obtain ⟨hvalues', hpending'⟩ := step_of_unchanged (htransfer.trans hr) hu'
      exact ⟨by rw [hvalues, hvalues', hit.values], by rw [hpending, hpending', hit.pending]⟩
    · obtain ⟨it₀, hv, hp, hstep⟩ := step_of_changed hr hu
      have hu' : it'.values.get? e.2 ≠ some (d'.arrived (it'.values.get? e.2) u) := by
        rw [harrived, hit.values]
        exact hu
      obtain ⟨it₀', hv', hp', hstep'⟩ := step_of_changed (htransfer.trans hr) hu'
      have halike : Alike it₀ it₀' := ⟨by rw [hv, hv', hit.values], by rw [hp, hp', hit.pending]⟩
      rw [hstep, hstep', harrived]
      exact halike.set _ _

theorem alike_foldl_step (h : d.Restricts d' test) {n : NodeId} (hn : test n = true) (v : V)
    {l : List (EdgeId × NodeId)} (hl : ∀ e ∈ l, e ∈ d.successors n) {it it' : Iteration V ω}
    (hit : Alike it it')
    (hvalued : ∀ m u, (l.foldl (d.step v) it).values.get? m = some u → test m = true) :
    Alike (l.foldl (d.step v) it) ((l.filter (test ·.2)).foldl (d'.step v) it') := by
  induction l generalizing it it' with
  | nil => exact hit
  | cons e l ih =>
    have he := hl e List.mem_cons_self
    have hrest : ∀ e ∈ l, e ∈ d.successors n := fun e he => hl e (List.mem_cons_of_mem _ he)
    cases ht : test e.2 with
    | true =>
      rw [List.filter_cons_of_pos (by simpa using ht)]
      exact ih hrest (h.alike_step hn he ht v hit) hvalued
    | false =>
      rw [List.filter_cons_of_neg (by simpa using ht)]
      refine ih hrest ?_ hvalued
      cases hr : (d.transfer v e.1).1 with
      | none =>
        obtain ⟨hvalues, hpending⟩ := step_of_none it hr
        exact ⟨by rw [hvalues, hit.values], by rw [hpending, hit.pending]⟩
      | some u =>
        obtain ⟨w, hw, -⟩ := (rises_true (d := d)).reaches_foldl_step List.mem_cons_self hr it
        rw [hvalued e.2 w hw] at ht
        cases ht

theorem alike_visit (h : d.Restricts d' test) {n : NodeId} {it it' : Iteration V ω}
    (hit : Alike it it')
    (hvalued : ∀ m u, (d.visit n it).values.get? m = some u → test m = true) :
    Alike (d.visit n it) (d'.visit n it') := by
  have hrise := (rises_true (d := d)).later_visit n it
  unfold visit at hvalued hrise ⊢
  rw [hit.values]
  cases hv : it.values.get? n with
  | none => exact hit
  | some v =>
    rw [hv] at hvalued hrise
    obtain ⟨w, hw, -⟩ := hrise.rise n v hv
    have hn := hvalued n w hw
    rw [h.successors n hn]
    exact h.alike_foldl_step hn v (fun _ he => he) ⟨rfl, hit.pending⟩ hvalued

theorem alike_iterate (h : d.Restricts d' test) {allowed : Nat} {it it' fin : Iteration V ω}
    (hit : Alike it it') (hfin : d.iterate allowed it = some fin)
    (hvalued : ∀ m u, fin.values.get? m = some u → test m = true) :
    ∃ fin', d'.iterate allowed it' = some fin' ∧ Alike fin fin' := by
  induction allowed generalizing it it' with
  | zero =>
    unfold iterate at hfin ⊢
    rw [hit.pending]
    split at hfin
    · exact ⟨it', rfl, Option.some.inj hfin ▸ hit⟩
    · cases hfin
  | succ allowed ih =>
    unfold iterate at hfin ⊢
    rw [hit.pending]
    split at hfin
    · exact ⟨it', rfl, Option.some.inj hfin ▸ hit⟩
    · rename_i n rest hp
      have hrest : Alike { it with pending := rest } { it' with pending := rest } :=
        ⟨hit.values, rfl⟩
      refine ih (h.alike_visit hrest fun m u hu => ?_) hfin
      obtain ⟨w, hw, -⟩ := (rises_true (d := d)).reaches_iterate hfin hu
      exact hvalued m w hw

/-- Without nodes that have no value the solver finds the same values within the same limit. -/
theorem solve (h : d.Restricts d' test) (hs : d.solve pass limit = .ok sol)
    (hvalued : ∀ n v, sol.value n = some v → test n = true) :
    ∃ sol', d'.solve pass limit = .ok sol' ∧ ∀ n, sol'.value n = sol.value n := by
  obtain ⟨fin, hfin, hvalues, -⟩ := solve_eq_ok hs
  have hstart : (d'.start : Iteration V ω) = d.start := by
    unfold start
    rw [h.entries, h.seed]
  obtain ⟨fin', hfin', halike⟩ := h.alike_iterate (.refl d.start) hfin
    fun m u hu => hvalued m u (by rw [Solution.value, hvalues]; exact hu)
  rw [← hstart] at hfin'
  refine ⟨_, by rw [Dataflow.solve, hfin'], fun n => ?_⟩
  rw [Solution.value, Solution.value, hvalues]
  exact congrArg (SortedMap.get? · n) halike.values

end Restricts

end Dataflow

end Typestate

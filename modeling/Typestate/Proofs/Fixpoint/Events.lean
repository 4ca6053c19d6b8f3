import Typestate.Proofs.Fixpoint

/-!
# Where events come from

Each time the solver visits a node it keeps the events of all edges out of it. So the events of
a solution include those of every final value, and each of them comes from a value that lies at
or below the final one at its node. Whether there are more events than those of the final values
depends on what the values on the way emit.
-/
namespace Typestate

variable {V ω : Type}

@[simp] theorem Iteration.events_set {n : NodeId} {v : V} {it : Iteration V ω} :
    (it.set n v).events = it.events := by
  unfold set push
  split <;> rfl

namespace Dataflow

open Iteration

variable {d : Dataflow V ω}

theorem events_start : (d.start : Iteration V ω).events = [] := by
  have fold : ∀ (l : List NodeId) (it : Iteration V ω),
      (l.foldl (fun it n => it.set n (d.seed n)) it).events = it.events := by
    intro l
    induction l with
    | nil => exact fun _ => rfl
    | cons n l ih =>
      intro it
      rw [List.foldl_cons, ih, events_set]
  exact fold d.entries _

/-- Whether an event is emitted along an edge out of a node by a value there. -/
def Emits (d : Dataflow V ω) (n : NodeId) (v : V) (x : ω) : Prop :=
  ∃ e ∈ d.successors n, x ∈ (d.transfer v e.1).2

variable [DecidableEq V]

theorem events_step (v : V) (it : Iteration V ω) (e : EdgeId × NodeId) :
    (d.step v it e).events = (d.transfer v e.1).2.reverse ++ it.events := by
  unfold step
  dsimp only
  split
  · rfl
  · split
    · rfl
    · rw [events_set]

theorem mem_events_foldl_step {v : V} {x : ω} {l : List (EdgeId × NodeId)}
    {it : Iteration V ω} : x ∈ (l.foldl (d.step v) it).events ↔
      (∃ e ∈ l, x ∈ (d.transfer v e.1).2) ∨ x ∈ it.events := by
  induction l generalizing it with
  | nil => simp
  | cons e l ih =>
    rw [List.foldl_cons, ih, events_step, List.mem_append, List.mem_reverse]
    simp [or_assoc, or_left_comm]

theorem mem_events_visit {n : NodeId} {it : Iteration V ω} {x : ω} :
    x ∈ (d.visit n it).events ↔
      (∃ v, it.values.get? n = some v ∧ d.Emits n v x) ∨ x ∈ it.events := by
  unfold visit
  split
  · rename_i hn
    simp [hn]
  · rename_i v hv
    rw [mem_events_foldl_step, hv]
    simp [Emits]

theorem events_induction {P : List ω → Prop} (hnil : P [])
    (htransfer : ∀ l v e, P l → P (l ++ (d.transfer v e).2)) {pass : String} {limit : Nat}
    {sol : Solution V ω} (hs : d.solve pass limit = .ok sol) : P sol.events := by
  obtain ⟨it, hit, -, hevents⟩ := solve_eq_ok hs
  rw [hevents]
  refine (iterate_induction (M := fun it => P it.events.reverse) (fun it n rest _ hP => ?_) hit
    (by rw [events_start]; exact hnil)).1
  refine visit_induction (M := fun it => P it.events.reverse) hP hP fun v _ e _ j hj => ?_
  rw [events_step, List.reverse_append, List.reverse_reverse]
  exact htransfer _ v e.1 hj

/-- Every node that is not to be visited has had its events kept. -/
def Kept (d : Dataflow V ω) (it : Iteration V ω) : Prop :=
  ∀ n, n ∉ it.pending → ∀ v, it.values.get? n = some v → ∀ x, d.Emits n v x → x ∈ it.events

theorem Kept.visit {it : Iteration V ω} {n : NodeId} {rest : List NodeId}
    (hp : it.pending = n :: rest) (hk : d.Kept it) :
    d.Kept (d.visit n { it with pending := rest }) := by
  intro m hm v hv x hx
  have hlater := rises_true.later_visit (d := d) n { it with pending := rest }
  have hvm : it.values.get? m = some v :=
    (hlater.changed m).elim (fun heq => heq ▸ hv) fun hpending => absurd hpending hm
  rw [mem_events_visit]
  by_cases hmn : m = n
  · subst hmn
    exact .inl ⟨v, hvm, hx⟩
  · refine .inr (hk m ?_ v hvm x hx)
    rw [hp, List.mem_cons, not_or]
    exact ⟨hmn, fun hrest => hm (hlater.pending m hrest)⟩

variable {pass : String} {limit : Nat} {sol : Solution V ω}

/-- What the final value of a node emits is among the events of the solution. -/
theorem mem_events_of_emits (hs : d.solve pass limit = .ok sol) {n : NodeId} {v : V}
    (hv : sol.value n = some v) {x : ω} (hx : d.Emits n v x) : x ∈ sol.events := by
  obtain ⟨it, hit, hvalues, hevents⟩ := solve_eq_ok hs
  have hstart : d.Kept d.start := by
    intro m hm v hv
    rw [get?_start, if_neg fun hme => hm (mem_pending_start hme)] at hv
    cases hv
  obtain ⟨hkept, hdone⟩ :=
    iterate_induction (M := d.Kept) (fun _ _ _ hp hk => hk.visit hp) hit hstart
  rw [hevents, List.mem_reverse]
  exact hkept n (hdone ▸ List.not_mem_nil) v (hvalues ▸ hv) x hx

/-- Every event of a solution is emitted by a value at or below the final one at its node, which
has what the seeds have and survives transfers and meets. -/
theorem Preserves.exists_emits_of_mem_events {P : NodeId → V → Prop} (h : d.Preserves P)
    {le : V → V → Prop} (hr : d.Rises le) (hs : d.solve pass limit = .ok sol) {x : ω}
    (hx : x ∈ sol.events) :
    ∃ n v w, sol.value n = some w ∧ le v w ∧ P n v ∧ d.Emits n v x := by
  obtain ⟨it, hit, hvalues, hevents⟩ := solve_eq_ok hs
  let M (j : Iteration V ω) : Prop :=
    (∀ n v, j.values.get? n = some v → P n v) ∧
      ∀ y ∈ j.events, ∃ n v w, it.values.get? n = some w ∧ le v w ∧ P n v ∧ d.Emits n v y
  have hwithin : d.PreservesWithin (fun _ _ => True) P := ⟨h.seed, fun _ => h.transfer, h.meet⟩
  have hM : M it := by
    refine hr.iterate_induction (fun j n rest _ hrise hj => ⟨?_, ?_⟩) hit ⟨?_, ?_⟩
    · refine visit_induction (M := fun it => ∀ m w, it.values.get? m = some w → P m w)
        hj.1 hj.1 fun v hv e he k hk => ?_
      exact hwithin.step trivial (hj.1 n v hv) he hk
    · intro y hy
      rcases mem_events_visit.1 hy with ⟨v, hv, hemits⟩ | hy
      · obtain ⟨w, hw, hle⟩ := hrise n v hv
        exact ⟨n, v, w, hw, hle, hj.1 n v hv, hemits⟩
      · exact hj.2 y hy
    · intro n v hv
      rw [get?_start] at hv
      split at hv
      · rename_i hn
        exact Option.some.inj hv ▸ h.seed n hn
      · cases hv
    · rw [events_start]
      exact fun y hy => absurd hy List.not_mem_nil
  rw [hevents, List.mem_reverse] at hx
  obtain ⟨n, v, w, hw, hle, hP, hemits⟩ := hM.2 x hx
  exact ⟨n, v, w, (congrArg (·.get? n) hvalues).trans hw, hle, hP, hemits⟩

end Dataflow

end Typestate

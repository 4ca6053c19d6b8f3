import Typestate.Fixpoint

/-!
# What the solver's values cover

Values are compared by an order in which a meet lies above both of its values. While the
solver runs, the value at a node only rises, and a node whose value rises is put on the list
of nodes to visit; so each node that is not on the list has passed its value on, and when the
list is empty every node has. What holds of the seeds and survives transfers and meets holds
of every value.
-/
namespace Typestate

variable {V ω : Type}

theorem exists_eq_ok_of_any {ε α : Type} (x : Except ε α) (test : α → Bool)
    (h : x.toOption.any test = true) : ∃ a, x = .ok a ∧ test a = true := by
  cases x with
  | error e => cases h
  | ok a => exact ⟨a, rfl, h⟩

/-- An order of values in which a meet lies above both of its values. -/
structure Dataflow.Rises (d : Dataflow V ω) (le : V → V → Prop) : Prop where
  refl : ∀ v, le v v
  trans : ∀ {u v w}, le u v → le v w → le u w
  meet_left : ∀ u v, le u (d.meet u v)
  meet_right : ∀ u v, le v (d.meet u v)

/-- The value at a node is at or above a given one. -/
def Reaches (le : V → V → Prop) (values : SortedMap NodeId V) (n : NodeId) (v : V) : Prop :=
  ∃ w, values.get? n = some w ∧ le v w

namespace Iteration

@[simp] theorem values_push {n : NodeId} {it : Iteration V ω} :
    (it.push n).values = it.values := by
  unfold push
  split <;> rfl

theorem mem_pending_push {n m : NodeId} {it : Iteration V ω} :
    m ∈ (it.push n).pending ↔ m = n ∨ m ∈ it.pending := by
  unfold push
  split
  · rename_i h
    refine ⟨.inr, ?_⟩
    rintro (rfl | hm)
    · exact h
    · exact hm
  · simp

@[simp] theorem get?_set {n m : NodeId} {v : V} {it : Iteration V ω} :
    (it.set n v).values.get? m = if m = n then some v else it.values.get? m := by
  simp [set]

theorem mem_pending_set {n m : NodeId} {v : V} {it : Iteration V ω} :
    m ∈ (it.set n v).pending ↔ m = n ∨ m ∈ it.pending :=
  mem_pending_push

/-- A later state of a run: values have risen, nodes whose values changed are to be visited,
and so are those that were. -/
structure Later (le : V → V → Prop) (it it' : Iteration V ω) : Prop where
  rise : ∀ n v, it.values.get? n = some v → Reaches le it'.values n v
  changed : ∀ n, it'.values.get? n = it.values.get? n ∨ n ∈ it'.pending
  pending : ∀ n ∈ it.pending, n ∈ it'.pending

end Iteration

namespace Dataflow

open Iteration

variable {d : Dataflow V ω} {le : V → V → Prop}

theorem rises_true : d.Rises fun _ _ => True :=
  ⟨fun _ => trivial, fun _ _ => trivial, fun _ _ => trivial, fun _ _ => trivial⟩

namespace Rises

theorem later_refl (h : d.Rises le) {it it' : Iteration V ω} (hv : it'.values = it.values)
    (hp : it'.pending = it.pending) : Later le it it' where
  rise n v hn := ⟨v, hv ▸ hn, h.refl v⟩
  changed n := .inl (by rw [hv])
  pending n hn := hp ▸ hn

theorem reaches_trans (h : d.Rises le) {values : SortedMap NodeId V} {n : NodeId} {u v : V}
    (huv : le u v) (hv : Reaches le values n v) : Reaches le values n u := by
  obtain ⟨w, hw, hvw⟩ := hv
  exact ⟨w, hw, h.trans huv hvw⟩

theorem reaches_later (h : d.Rises le) {it it' : Iteration V ω} (hl : Later le it it')
    {n : NodeId} {v : V} (hv : Reaches le it.values n v) : Reaches le it'.values n v := by
  obtain ⟨w, hw, hvw⟩ := hv
  exact h.reaches_trans hvw (hl.rise n w hw)

theorem later_trans (h : d.Rises le) {it it' it'' : Iteration V ω} (h₁ : Later le it it')
    (h₂ : Later le it' it'') : Later le it it'' where
  rise n v hn := h.reaches_later h₂ (h₁.rise n v hn)
  changed n := by
    rcases h₂.changed n with he | hn
    · rcases h₁.changed n with he' | hn
      · exact .inl (he.trans he')
      · exact .inr (h₂.pending n hn)
    · exact .inr hn
  pending n hn := h₂.pending n (h₁.pending n hn)

theorem later_set (h : d.Rises le) {it : Iteration V ω} {n : NodeId} {v : V}
    (hv : ∀ o, it.values.get? n = some o → le o v) : Later le it (it.set n v) where
  rise m o hm := by
    unfold Reaches
    by_cases hmn : m = n
    · subst hmn
      exact ⟨v, by simp, hv o hm⟩
    · exact ⟨o, by simp [hmn, hm], h.refl o⟩
  changed m := by
    by_cases hmn : m = n
    · exact .inr (mem_pending_set.2 (.inl hmn))
    · exact .inl (by simp [hmn])
  pending m hm := mem_pending_set.2 (.inr hm)

end Rises

theorem get?_start {n : NodeId} :
    (d.start : Iteration V ω).values.get? n =
      if n ∈ d.entries then some (d.seed n) else none := by
  have fold : ∀ (l : List NodeId) (it : Iteration V ω),
      (l.foldl (fun it n => it.set n (d.seed n)) it).values.get? n =
        if n ∈ l then some (d.seed n) else it.values.get? n := by
    intro l
    induction l with
    | nil => simp
    | cons m l ih =>
      intro it
      rw [List.foldl_cons, ih]
      by_cases hml : n ∈ l
      · simp [hml]
      · by_cases hmn : n = m
        · subst hmn
          simp [hml]
        · simp [hml, hmn]
  exact fold d.entries ⟨∅, [], [], [], []⟩

theorem mem_pending_start {n : NodeId} (hn : n ∈ d.entries) :
    n ∈ (d.start : Iteration V ω).pending := by
  have fold : ∀ (l : List NodeId) (it : Iteration V ω), n ∈ l ∨ n ∈ it.pending →
      n ∈ (l.foldl (fun it n => it.set n (d.seed n)) it).pending := by
    intro l
    induction l with
    | nil => exact fun it h => h.resolve_left List.not_mem_nil
    | cons m l ih =>
      intro it h
      refine ih _ ?_
      rcases h with h | h
      · rcases List.mem_cons.1 h with rfl | h
        · exact .inr (mem_pending_set.2 (.inl rfl))
        · exact .inl h
      · exact .inr (mem_pending_set.2 (.inr h))
  exact fold d.entries _ (.inl hn)

/-- The value that a step sets the target to: the one that arrived, met with the old one if
there is one. -/
def arrived (d : Dataflow V ω) (old : Option V) (u : V) : V :=
  match old with
  | some o => d.meet o u
  | none => u

theorem Rises.le_arrived (h : d.Rises le) (old : Option V) (u : V) : le u (d.arrived old u) := by
  cases old with
  | none => exact h.refl u
  | some o => exact h.meet_right o u

variable [DecidableEq V]

theorem step_of_none {v : V} (it : Iteration V ω) {e : EdgeId × NodeId}
    (h : (d.transfer v e.1).1 = none) :
    (d.step v it e).values = it.values ∧ (d.step v it e).pending = it.pending := by
  unfold step
  simp [h]

theorem step_of_unchanged {v u : V} {it : Iteration V ω} {e : EdgeId × NodeId}
    (h : (d.transfer v e.1).1 = some u)
    (hu : it.values.get? e.2 = some (d.arrived (it.values.get? e.2) u)) :
    (d.step v it e).values = it.values ∧ (d.step v it e).pending = it.pending := by
  unfold step
  cases ho : it.values.get? e.2 with
  | none => simp [ho] at hu
  | some o =>
    have hmeet : o = d.meet o u := by simpa [ho, arrived] using hu
    simp [h, ho, ← hmeet]

theorem step_of_changed {v u : V} {it : Iteration V ω} {e : EdgeId × NodeId}
    (h : (d.transfer v e.1).1 = some u)
    (hu : it.values.get? e.2 ≠ some (d.arrived (it.values.get? e.2) u)) :
    ∃ it₀ : Iteration V ω, it₀.values = it.values ∧ it₀.pending = it.pending ∧
      d.step v it e = it₀.set e.2 (d.arrived (it.values.get? e.2) u) := by
  refine ⟨{ it with
    changes := ⟨e.2, it.values.get? e.2, d.arrived (it.values.get? e.2) u⟩ :: it.changes
    events := (d.transfer v e.1).2.reverse ++ it.events }, rfl, rfl, ?_⟩
  unfold step
  simp only [h]
  exact if_neg hu

namespace Rises

theorem later_step (h : d.Rises le) (v : V) (it : Iteration V ω) (e : EdgeId × NodeId) :
    Later le it (d.step v it e) := by
  cases hr : (d.transfer v e.1).1 with
  | none =>
    obtain ⟨hv, hp⟩ := step_of_none it hr
    exact h.later_refl hv hp
  | some u =>
    by_cases hu : it.values.get? e.2 = some (d.arrived (it.values.get? e.2) u)
    · obtain ⟨hv, hp⟩ := step_of_unchanged hr hu
      exact h.later_refl hv hp
    · obtain ⟨it₀, hv, hp, hs⟩ := step_of_changed hr hu
      rw [hs]
      refine h.later_trans (h.later_refl hv hp) (h.later_set fun o ho => ?_)
      rw [← hv, ho]
      exact h.meet_left o u

theorem reaches_step (h : d.Rises le) {v u : V} {it : Iteration V ω} {e : EdgeId × NodeId}
    (hr : (d.transfer v e.1).1 = some u) : Reaches le (d.step v it e).values e.2 u := by
  by_cases hu : it.values.get? e.2 = some (d.arrived (it.values.get? e.2) u)
  · exact ⟨_, (step_of_unchanged hr hu).1 ▸ hu, h.le_arrived _ u⟩
  · obtain ⟨it₀, -, -, hs⟩ := step_of_changed hr hu
    exact ⟨d.arrived (it.values.get? e.2) u, by simp [hs], h.le_arrived _ u⟩

theorem later_foldl_step (h : d.Rises le) (v : V) (l : List (EdgeId × NodeId))
    (it : Iteration V ω) : Later le it (l.foldl (d.step v) it) := by
  induction l generalizing it with
  | nil => exact h.later_refl rfl rfl
  | cons e l ih => exact h.later_trans (h.later_step v it e) (ih _)

theorem reaches_foldl_step (h : d.Rises le) {v u : V} {l : List (EdgeId × NodeId)}
    {e : EdgeId × NodeId} (he : e ∈ l) (hr : (d.transfer v e.1).1 = some u)
    (it : Iteration V ω) : Reaches le (l.foldl (d.step v) it).values e.2 u := by
  induction l generalizing it with
  | nil => cases he
  | cons e' l ih =>
    rcases List.mem_cons.1 he with rfl | he
    · exact h.reaches_later (h.later_foldl_step v l _) (h.reaches_step hr)
    · exact ih he _

end Rises

/-- What the value of a node sends along its edges has arrived. -/
def PassedOn (d : Dataflow V ω) (le : V → V → Prop) (values : SortedMap NodeId V)
    (n : NodeId) : Prop :=
  ∀ v, values.get? n = some v → ∀ e ∈ d.successors n, ∀ u,
    (d.transfer v e.1).1 = some u → Reaches le values e.2 u

namespace Rises

theorem later_visit (h : d.Rises le) (n : NodeId) (it : Iteration V ω) :
    Later le it (d.visit n it) := by
  unfold visit
  split
  · exact h.later_refl rfl rfl
  · rename_i v hv
    have hvisit : Later le it { it with visits := n :: it.visits } := h.later_refl rfl rfl
    exact h.later_trans hvisit (h.later_foldl_step v _ _)

/-- After its visit a node has passed its value on, unless it is to be visited again. -/
theorem passedOn_visit (h : d.Rises le) (n : NodeId) (it : Iteration V ω)
    (hn : n ∉ (d.visit n it).pending) : d.PassedOn le (d.visit n it).values n := by
  intro v hv e he u hu
  have hvn : it.values.get? n = some v := by
    rcases (h.later_visit n it).changed n with heq | hp
    · exact heq ▸ hv
    · exact absurd hp hn
  unfold visit
  rw [hvn]
  exact h.reaches_foldl_step he hu _

/-- Every node that is not to be visited has passed its value on. -/
def Settled (d : Dataflow V ω) (le : V → V → Prop) (it : Iteration V ω) : Prop :=
  ∀ n, n ∉ it.pending → d.PassedOn le it.values n

theorem settled_visit (h : d.Rises le) {it : Iteration V ω} {n : NodeId} {rest : List NodeId}
    (hp : it.pending = n :: rest) (hs : Settled d le it) :
    Settled d le (d.visit n { it with pending := rest }) := by
  intro m hm
  by_cases hmn : m = n
  · subst hmn
    exact h.passedOn_visit m _ hm
  · have hl := h.later_visit n { it with pending := rest }
    have hrest : m ∉ it.pending := by
      rw [hp, List.mem_cons, not_or]
      exact ⟨hmn, fun hr => hm (hl.pending m hr)⟩
    intro v hv e he u hu
    have hvm : it.values.get? m = some v := by
      rcases hl.changed m with heq | hp
      · exact heq ▸ hv
      · exact absurd hp hm
    exact h.reaches_later hl (hs m hrest v hvm e he u hu)

end Rises

/-- What every visit preserves holds when no node is left to visit. -/
theorem iterate_induction {M : Iteration V ω → Prop}
    (hvisit : ∀ it n rest, it.pending = n :: rest → M it →
      M (d.visit n { it with pending := rest }))
    {allowed : Nat} {it it' : Iteration V ω} (h : d.iterate allowed it = some it')
    (hM : M it) : M it' ∧ it'.pending = [] := by
  induction allowed generalizing it with
  | zero =>
    unfold iterate at h
    split at h
    · rename_i hp
      exact Option.some.inj h ▸ ⟨hM, hp⟩
    · cases h
  | succ allowed ih =>
    unfold iterate at h
    split at h
    · rename_i hp
      exact Option.some.inj h ▸ ⟨hM, hp⟩
    · rename_i n rest hp
      exact ih h (hvisit it n rest hp hM)

theorem solve_eq_ok {pass : String} {limit : Nat} {sol : Solution V ω}
    (h : d.solve pass limit = .ok sol) :
    ∃ it, d.iterate limit d.start = some it ∧ sol.values = it.values ∧
      sol.events = it.events.reverse := by
  unfold solve at h
  split at h
  · cases h
  · rename_i it hit
    cases h
    exact ⟨it, hit, rfl, rfl⟩

namespace Rises

variable {pass : String} {limit : Nat} {sol : Solution V ω}

theorem passedOn_solve (h : d.Rises le) (hs : d.solve pass limit = .ok sol) (n : NodeId) :
    d.PassedOn le sol.values n := by
  obtain ⟨it, hit, hv, -⟩ := solve_eq_ok hs
  have hstart : Settled d le d.start := by
    intro m hm v hv
    rw [get?_start, if_neg fun hme => hm (mem_pending_start hme)] at hv
    cases hv
  obtain ⟨hset, hp⟩ := iterate_induction (M := Settled d le)
    (fun _ _ _ hp hM => h.settled_visit hp hM) hit hstart
  rw [hv]
  exact hset n (hp ▸ List.not_mem_nil)

theorem reaches_seed (h : d.Rises le) (hs : d.solve pass limit = .ok sol) {n : NodeId}
    (hn : n ∈ d.entries) : Reaches le sol.values n (d.seed n) := by
  obtain ⟨it, hit, hv, -⟩ := solve_eq_ok hs
  rw [hv]
  refine (iterate_induction (M := fun it => Reaches le it.values n (d.seed n)) ?_ hit ?_).1
  · intro it m rest hp hM
    exact h.reaches_later (h.later_visit m { it with pending := rest }) hM
  · exact ⟨d.seed n, by rw [get?_start, if_pos hn], h.refl _⟩

end Rises

/-- Values have risen when no node is left to visit. -/
theorem Rises.reaches_iterate (h : d.Rises le) {allowed : Nat} {it it' : Iteration V ω}
    (hit : d.iterate allowed it = some it') {n : NodeId} {v : V}
    (hv : it.values.get? n = some v) : Reaches le it'.values n v := by
  refine (Dataflow.iterate_induction (M := fun j => Reaches le j.values n v) ?_ hit
    ⟨v, hv, h.refl v⟩).1
  intro j m rest _ hj
  exact h.reaches_later (h.later_visit m { j with pending := rest }) hj

/-- In what every visit preserves, each value may be taken to be at or below the last one at
its node. -/
theorem Rises.iterate_induction (h : d.Rises le) {M : Iteration V ω → Prop} {allowed : Nat}
    {it it' : Iteration V ω}
    (hvisit : ∀ j n rest, j.pending = n :: rest →
      (∀ m v, j.values.get? m = some v → Reaches le it'.values m v) → M j →
      M (d.visit n { j with pending := rest }))
    (hit : d.iterate allowed it = some it') (hM : M it) : M it' := by
  induction allowed generalizing it with
  | zero =>
    unfold iterate at hit
    split at hit
    · exact Option.some.inj hit ▸ hM
    · cases hit
  | succ allowed ih =>
    have hrise : ∀ m v, it.values.get? m = some v → Reaches le it'.values m v :=
      fun _ _ => h.reaches_iterate hit
    unfold iterate at hit
    split at hit
    · exact Option.some.inj hit ▸ hM
    · rename_i n rest hp
      exact ih hit (hvisit it n rest hp hrise hM)

/-- What holds at the start of a visit and survives its steps holds at its end. -/
theorem visit_induction {M : Iteration V ω → Prop} {n : NodeId} {it : Iteration V ω}
    (hM : M it) (hvisits : M { it with visits := n :: it.visits })
    (hstep : ∀ v, it.values.get? n = some v → ∀ e ∈ d.successors n, ∀ j, M j →
      M (d.step v j e)) : M (d.visit n it) := by
  unfold visit
  split
  · exact hM
  · rename_i v hv
    have fold : ∀ (l : List (EdgeId × NodeId)) (j : Iteration V ω),
        (∀ e ∈ l, e ∈ d.successors n) → M j → M (l.foldl (d.step v) j) := by
      intro l
      induction l with
      | nil => exact fun _ _ hj => hj
      | cons e l ih =>
        intro j hl hj
        exact ih _ (fun e' he' => hl e' (by simp [he'])) (hstep v hv e (hl e (by simp)) j hj)
    exact fold _ _ (fun _ he => he) hvisits

/-- A property of the values of nodes that the seeds have and that survives meets, and
transfers of values within some bounds. -/
structure PreservesWithin (d : Dataflow V ω) (bound P : NodeId → V → Prop) : Prop where
  seed : ∀ n ∈ d.entries, P n (d.seed n)
  transfer : ∀ {n v e u}, bound n v → P n v → e ∈ d.successors n →
    (d.transfer v e.1).1 = some u → P e.2 u
  meet : ∀ {n v u}, P n v → P n u → P n (d.meet v u)

namespace PreservesWithin

variable {bound P : NodeId → V → Prop}

theorem step (h : d.PreservesWithin bound P) {n : NodeId} {v : V} (hb : bound n v)
    (hv : P n v) {e : EdgeId × NodeId} (he : e ∈ d.successors n) {it : Iteration V ω}
    (hit : ∀ m w, it.values.get? m = some w → P m w) :
    ∀ m w, (d.step v it e).values.get? m = some w → P m w := by
  intro m w hw
  cases hr : (d.transfer v e.1).1 with
  | none => exact hit m w ((step_of_none it hr).1 ▸ hw)
  | some u =>
    by_cases hu : it.values.get? e.2 = some (d.arrived (it.values.get? e.2) u)
    · exact hit m w ((step_of_unchanged hr hu).1 ▸ hw)
    · obtain ⟨it₀, hv₀, -, hs⟩ := step_of_changed hr hu
      have hPu := h.transfer hb hv he hr
      rw [hs, get?_set, hv₀] at hw
      split at hw
      · rename_i hme
        obtain rfl := Option.some.inj hw
        subst hme
        cases ho : it.values.get? e.2 with
        | none => exact hPu
        | some o => exact h.meet (hit _ o ho) hPu
      · exact hit m w hw

/-- The property holds of every value of a solution, if values at or below those of the
solution are within the bounds. -/
theorem solve (h : d.PreservesWithin bound P) (hr : d.Rises le) {pass : String} {limit : Nat}
    {sol : Solution V ω} (hs : d.solve pass limit = .ok sol)
    (hbound : ∀ n v, Reaches le sol.values n v → bound n v) {n : NodeId} {v : V}
    (hv : sol.value n = some v) : P n v := by
  obtain ⟨it, hit, hval, -⟩ := solve_eq_ok hs
  rw [hval] at hbound
  have hall := hr.iterate_induction (M := fun it => ∀ m w, it.values.get? m = some w → P m w)
    ?_ hit ?_
  · exact hall n v (hval ▸ hv)
  · intro j m rest _ hrise hj
    refine visit_induction (M := fun it => ∀ m w, it.values.get? m = some w → P m w) hj hj ?_
    exact fun u hu e he k hk => h.step (hbound m u (hrise m u hu)) (hj m u hu) he hk
  · intro m w hw
    rw [get?_start] at hw
    split at hw
    · rename_i hm
      exact Option.some.inj hw ▸ h.seed m hm
    · cases hw

end PreservesWithin

/-- A property of the values of nodes that the seeds have and that survives transfers and
meets. -/
structure Preserves (d : Dataflow V ω) (P : NodeId → V → Prop) : Prop where
  seed : ∀ n ∈ d.entries, P n (d.seed n)
  transfer : ∀ {n v e u}, P n v → e ∈ d.successors n → (d.transfer v e.1).1 = some u → P e.2 u
  meet : ∀ {n v u}, P n v → P n u → P n (d.meet v u)

/-- The property holds of every value of a solution. -/
theorem Preserves.solve {P : NodeId → V → Prop} (h : d.Preserves P) {pass : String}
    {limit : Nat} {sol : Solution V ω} (hs : d.solve pass limit = .ok sol) {n : NodeId} {v : V}
    (hv : sol.value n = some v) : P n v := by
  have hwithin : d.PreservesWithin (fun _ _ => True) P :=
    ⟨h.seed, fun _ => h.transfer, h.meet⟩
  exact hwithin.solve rises_true hs (fun _ _ _ => trivial) hv

end Dataflow

end Typestate

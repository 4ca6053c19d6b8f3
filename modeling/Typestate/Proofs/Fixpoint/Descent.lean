import Mathlib.Data.List.Chain
import Typestate.Proofs.Fixpoint

/-!
# Solutions are fixed points

A meet that is associative, commutative and idempotent orders the values: one is below another
if the meet of both is the first. In a solution every entry is below its seed, and the target of
an edge is below what the edge brings. What the solver tells of a node starts with its seed or
with what first arrives there, goes down from change to change, and ends with the value in the
solution. Transfers need not be monotone.
-/
namespace Typestate

variable {V ω : Type}

@[simp] theorem Iteration.changes_set {n : NodeId} {v : V} {it : Iteration V ω} :
    (it.set n v).changes = it.changes := by
  unfold set push
  split <;> rfl

/-- One value is below another in the order of a meet. -/
def Dataflow.Below (d : Dataflow V ω) (u v : V) : Prop := d.meet u v = u

/-- The changes told of a node, in order. -/
def Solution.toldOf (sol : Solution V ω) (n : NodeId) : List (Change V) :=
  sol.trace.filter (·.node = n)

/-- How one change told of a node follows another: it seeds the node again or starts from the
value that the other left, and it goes down. -/
structure Dataflow.Follows (d : Dataflow V ω) (c c' : Change V) : Prop where
  old : c' ∈ d.seeds ∨ c'.old = some c.new
  below : d.Below c'.new c.new

namespace Dataflow

variable {d : Dataflow V ω}

theorem rises_below [Std.Associative d.meet] [Std.Commutative d.meet]
    [Std.IdempotentOp d.meet] : d.Rises fun u v => d.Below v u := by
  have assoc : ∀ u v w, d.meet (d.meet u v) w = d.meet u (d.meet v w) := Std.Associative.assoc
  have comm : ∀ u v, d.meet u v = d.meet v u := Std.Commutative.comm
  have idem : ∀ v, d.meet v v = v := Std.IdempotentOp.idempotent
  refine ⟨idem, fun {u v w} huv hvw => ?_, fun u v => ?_, fun u v => ?_⟩ <;> unfold Below at *
  · calc d.meet w u = d.meet (d.meet w v) u := by rw [hvw]
      _ = d.meet w (d.meet v u) := assoc w v u
      _ = w := by rw [huv, hvw]
  · rw [comm (d.meet u v) u, ← assoc, idem]
  · rw [assoc, idem]

/-- What has been told of a node, in order. -/
def toldBy (d : Dataflow V ω) (it : Iteration V ω) (n : NodeId) : List (Change V) :=
  (d.seeds ++ it.changes.reverse).filter (·.node = n)

/-- What has been told of each node goes down from change to change and ends with the value
there. -/
structure Told (d : Dataflow V ω) (it : Iteration V ω) : Prop where
  follows : ∀ n, (d.toldBy it n).IsChain d.Follows
  latest : ∀ n, (d.toldBy it n).getLast?.map Change.new = it.values.get? n

theorem mem_seeds {c : Change V} :
    c ∈ d.seeds ↔ c.node ∈ d.entries ∧ c = ⟨c.node, none, d.seed c.node⟩ := by
  unfold seeds
  rw [List.mem_map]
  constructor
  · rintro ⟨n, hn, rfl⟩
    exact ⟨hn, rfl⟩
  · rintro ⟨hn, hc⟩
    exact ⟨c.node, hn, hc.symm⟩

theorem changes_start : (d.start : Iteration V ω).changes = [] := by
  have fold : ∀ (l : List NodeId) (it : Iteration V ω),
      (l.foldl (fun it n => it.set n (d.seed n)) it).changes = it.changes := by
    intro l
    induction l with
    | nil => exact fun _ => rfl
    | cons n l ih =>
      intro it
      rw [List.foldl_cons, ih, Iteration.changes_set]
  exact fold d.entries _

theorem told_start (hidem : ∀ v, d.Below v v) : Told d d.start := by
  have hseed : ∀ n, ∀ c ∈ d.toldBy d.start n, n ∈ d.entries ∧ c = ⟨n, none, d.seed n⟩ := by
    intro n c hc
    rw [toldBy, changes_start, List.reverse_nil, List.append_nil] at hc
    obtain ⟨hseed, hn⟩ := List.mem_filter.1 hc
    obtain rfl : c.node = n := of_decide_eq_true hn
    exact mem_seeds.1 hseed
  refine ⟨fun n => ?_, fun n => ?_⟩
  · refine (List.pairwise_of_forall_mem_list fun c hc c' hc' => ?_).isChain
    obtain ⟨-, rfl⟩ := hseed n c hc
    obtain ⟨hn, rfl⟩ := hseed n c' hc'
    exact ⟨.inl (mem_seeds.2 ⟨hn, rfl⟩), hidem _⟩
  · rw [get?_start]
    split
    · rename_i hn
      have hmem : (⟨n, none, d.seed n⟩ : Change V) ∈ d.toldBy d.start n := by
        refine List.mem_filter.2 ⟨List.mem_append.2 (.inl (mem_seeds.2 ⟨hn, rfl⟩)), ?_⟩
        exact decide_eq_true rfl
      have hc := List.getLast?_eq_some_getLast (List.ne_nil_of_mem hmem)
      obtain ⟨-, hlast⟩ := hseed n _ (List.mem_of_getLast? hc)
      rw [hlast] at hc
      rw [hc, Option.map_some]
    · rename_i hn
      cases hc : (d.toldBy d.start n).getLast? with
      | none => rfl
      | some c => exact absurd (hseed n c (List.mem_of_getLast? hc)).1 hn

/-- A change that starts from the value at its node and goes down may be told next. -/
theorem Told.tell {it it' : Iteration V ω} (h : Told d it) {c : Change V}
    (hold : c.old = it.values.get? c.node) (hbelow : ∀ o, c.old = some o → d.Below c.new o)
    (hchanges : it'.changes = c :: it.changes)
    (hvalues : ∀ n, it'.values.get? n = if n = c.node then some c.new else it.values.get? n) :
    Told d it' := by
  have htold : ∀ n, d.toldBy it' n =
      d.toldBy it n ++ if c.node = n then [c] else [] := by
    intro n
    simp only [toldBy, hchanges, List.reverse_cons, ← List.append_assoc, List.filter_append,
      List.filter_cons, List.filter_nil, decide_eq_true_eq]
  refine ⟨fun n => ?_, fun n => ?_⟩
  · rw [htold]
    split
    · rename_i hn
      refine List.isChain_append.2 ⟨h.follows n, List.isChain_singleton c, fun b hb c' hc' => ?_⟩
      obtain rfl : c = c' := by simpa using hc'
      have hlast : it.values.get? c.node = some b.new := by
        rw [hn, ← h.latest n, Option.mem_def.1 hb, Option.map_some]
      exact ⟨.inr (hold.trans hlast), hbelow _ (hold.trans hlast)⟩
    · rw [List.append_nil]
      exact h.follows n
  · rw [htold, hvalues]
    by_cases hn : c.node = n
    · rw [if_pos hn, if_pos hn.symm, List.getLast?_concat, Option.map_some]
    · rw [if_neg hn, if_neg (Ne.symm hn), List.append_nil]
      exact h.latest n

variable [DecidableEq V]

/-- A step leaves values and changes alone, or changes the value of its target and tells it. -/
theorem step_cases (d : Dataflow V ω) (v : V) (it : Iteration V ω) (e : EdgeId × NodeId) :
    (d.step v it e).values = it.values ∧ (d.step v it e).changes = it.changes ∨
    ∃ u, (d.step v it e).changes =
        ⟨e.2, it.values.get? e.2, d.arrived (it.values.get? e.2) u⟩ :: it.changes ∧
      ∀ n, (d.step v it e).values.get? n =
        if n = e.2 then some (d.arrived (it.values.get? e.2) u) else it.values.get? n := by
  unfold step
  dsimp only
  split
  · exact .inl ⟨rfl, rfl⟩
  · rename_i u hu
    split
    · exact .inl ⟨rfl, rfl⟩
    · exact .inr ⟨u, Iteration.changes_set, fun n => Iteration.get?_set⟩

theorem Told.step (hr : d.Rises fun u v => d.Below v u) {it : Iteration V ω} (h : Told d it)
    (v : V) (e : EdgeId × NodeId) : Told d (d.step v it e) := by
  rcases step_cases d v it e with ⟨hvalues, hchanges⟩ | ⟨u, hchanges, hvalues⟩
  · refine ⟨fun n => ?_, fun n => ?_⟩
    · rw [toldBy, hchanges]
      exact h.follows n
    · rw [toldBy, hchanges, hvalues]
      exact h.latest n
  · refine h.tell rfl (fun o ho => ?_) hchanges hvalues
    dsimp only at ho ⊢
    rw [ho]
    exact hr.meet_left o u

theorem told_iterate (hr : d.Rises fun u v => d.Below v u) {allowed : Nat}
    {it : Iteration V ω} (hit : d.iterate allowed d.start = some it) : Told d it := by
  refine (iterate_induction (M := Told d) (fun j n rest _ hj => ?_) hit (told_start hr.refl)).1
  have hrest : Told d { j with pending := rest } := ⟨hj.follows, hj.latest⟩
  exact visit_induction (M := Told d) hrest ⟨hrest.follows, hrest.latest⟩
    fun v _ e _ k hk => hk.step hr v e

/-- A solution is a fixed point below the seeds, and the values told of a node go down to the
one in the solution. -/
theorem solve_fixedPoint [Std.Associative d.meet] [Std.Commutative d.meet]
    [Std.IdempotentOp d.meet] {pass : String} {limit : Nat} {sol : Solution V ω}
    (hs : d.solve pass limit = .ok sol) :
    (∀ n ∈ d.entries, ∃ v, sol.value n = some v ∧ d.meet v (d.seed n) = v) ∧
    (∀ n v, sol.value n = some v → ∀ e ∈ d.successors n, ∀ w, (d.transfer v e.1).1 = some w →
      ∃ u, sol.value e.2 = some u ∧ d.meet u w = u) ∧
    ∀ n, (sol.toldOf n).IsChain d.Follows ∧
      (sol.toldOf n).getLast?.map Change.new = sol.value n := by
  have hr := rises_below (d := d)
  refine ⟨fun n hn => hr.reaches_seed hs hn, fun n v hv e he w hw => ?_, fun n => ?_⟩
  · exact hr.passedOn_solve hs n v hv e he w hw
  · unfold solve at hs
    split at hs
    · cases hs
    · rename_i it hit
      cases hs
      have htold := told_iterate hr hit
      exact ⟨htold.follows n, htold.latest n⟩

/-- The least values over a graph with an entry given twice, parallel edges, a self-loop, an
edge back to an entry and a transfer that is not monotone. -/
def leastAround : Dataflow Nat Unit where
  entries := [0, 1, 0]
  seed n := 6 + 3 * n
  successors n := match n with
    | 0 => [(0, 1), (1, 1)]
    | 1 => [(2, 1), (3, 0), (4, 2)]
    | _ => []
  transfer v e := (match e with
    | 0 => some (v + 1)
    | 1 => some v
    | 2 => if v > 3 then some (v - 1) else none
    | 3 => some (8 - v)
    | _ => some v, [])
  meet := min

theorem solve_fixedPoint_leastAround :
    ∃ sol, leastAround.solve "least" 20 = .ok sol ∧
      (∀ n ∈ leastAround.entries, ∃ v, sol.value n = some v ∧
        min v (leastAround.seed n) = v) ∧
      (∀ n v, sol.value n = some v → ∀ e ∈ leastAround.successors n, ∀ w,
        (leastAround.transfer v e.1).1 = some w →
        ∃ u, sol.value e.2 = some u ∧ min u w = u) ∧
      ∀ n, (sol.toldOf n).IsChain leastAround.Follows ∧
        (sol.toldOf n).getLast?.map Change.new = sol.value n := by
  have : Std.Associative leastAround.meet := ⟨Nat.min_assoc⟩
  have : Std.Commutative leastAround.meet := ⟨Nat.min_comm⟩
  have : Std.IdempotentOp leastAround.meet := ⟨Nat.min_self⟩
  cases hs : leastAround.solve "least" 20 with
  | error fault =>
    have hok : (leastAround.solve "least" 20).isOk = true := by decide +kernel
    rw [hs] at hok
    cases hok
  | ok sol => exact ⟨sol, rfl, solve_fixedPoint hs⟩

end Dataflow

end Typestate
